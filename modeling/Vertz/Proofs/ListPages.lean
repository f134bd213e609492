import Vertz.Server.Entity.ListPages
import Vertz.Proofs.Pagination
import Vertz.Proofs.ListAccess

/-!
# `Vertz.Proofs.ListPages`: following the pages of a listing

A client that asks for the first page and then sends back each cursor it
gets should see every row the request may see, once and in the order it
asked for, and then be told that there is no more (`ListsAll`).

Three places have to agree for this. The listing makes the cursor of the
last row's key columns, as it returns them; the adapter compares it with
the key columns, or with the column `id`; the order is the request's.
`KeyLed` is the agreement: the compared columns are returned, and the
order begins with them.
-/

namespace Vertz.Spec

open Vertz.Lib
open Vertz.Lib.Keyset
open Vertz.Db
open Vertz.Db.Sql
open Vertz.Server.Entity

/-! ### What a client should read -/

section

variable (b : Backend) (readText : ReadText) (entity : EntityDefinition)
  (options : CrudPipelineOptions) (ctx : BaseContext) (opts : ListOptions) (store : Store)

/-- A row of the table that the listing's conditions select: those of the
access rule, the tenant and the filter. -/
def VisibleRow (row : SqlRow) : Prop :=
  row ∈ store entity.table.name ∧
    ∃ w, listWhere entity options ctx opts.where_ store = some w ∧
      selects b.engine b.dialect (sqlColumns entity.table) w row

/-- The order a request asks for. -/
def requestedOrder (orderBy : Option (Record SortDir)) : List (String × SortDir) :=
  buildOrderBy none orderBy none

/-- Following the cursors until there is none returns every visible row
exactly once and in order. -/
def ListsAll : Prop :=
  ∃ rows, Reads (pageFrom b readText entity options ctx opts store) none rows ∧ rows.Nodup ∧
    (∀ row, row ∈ rows ↔ VisibleRow b entity options ctx opts store row) ∧
    rows.Pairwise fun r s =>
      orderLe b.engine.dialect (requestedOrder opts.orderBy) r s = true

/-- The request is answered. -/
def ListAccepted : Prop :=
  ∃ page, pageFrom b readText entity options ctx opts store none = some page

end

/-! ### Keys -/

/-- Rows that their primary key tells apart. The key is never `NULL`, and
the database reads the text of a key value as that value. -/
structure KeyedRows (readText : ReadText) (table : TableDef) (rows : List SqlRow) : Prop where
  present : ∀ row ∈ rows, ∀ col ∈ resolvePkColumns table,
    (row (camelToSnake col none)).isNullish = false
  readBack : ∀ row ∈ rows, ∀ col ∈ resolvePkColumns table,
    readText (camelToSnake col none) (jsText (row (camelToSnake col none)))
      = row (camelToSnake col none)
  unique : rows.Pairwise fun r s =>
    ∃ col ∈ resolvePkColumns table, r (camelToSnake col none) ≠ s (camelToSnake col none)

/-- `JSON.parse` reads the cursor of a composite key back. -/
def ParsesCursors (b : Backend) (table : TableDef) : Prop :=
  isCompositePk table = true →
    ∀ texts : Record String, b.parseCursor (jsonObject texts) = some (texts.mapValues .str)

/-- The cursor behind a row is taken for what it is: it is not empty, not
too long, and the text of a single key does not look like an object. -/
structure Sent (table : TableDef) (row : SqlRow) : Prop where
  nonempty : rowCursor table row ≠ ""
  short : jsLength (rowCursor table row) ≤ MAX_CURSOR_LENGTH
  plain : isCompositePk table = false → (rowCursor table row).toList.head? ≠ some '\x7b'

/-- The cursor behind a row is dropped, or refused as an object. -/
def Lost (b : Backend) (table : TableDef) (row : SqlRow) : Prop :=
  rowCursor table row = "" ∨ MAX_CURSOR_LENGTH < jsLength (rowCursor table row) ∨
    ((rowCursor table row).toList.head? = some '\x7b' ∧
      b.parseCursor (rowCursor table row) = none)

/-- A small word, as the texts of short keys are. -/
def shortWord (s : String) : Bool :=
  s != "" && decide (s.length ≤ 9) && s.toList.all isLower

/-- The cursor of a short key fits, under the names of its columns. -/
def ShortKeysFit (table : TableDef) : Prop :=
  ∀ row, (∀ col ∈ resolvePkColumns table, shortWord (keyText table row col) = true) →
    Sent table row

/-! ### The columns of a cursor -/

/-- The columns of a cursor: the name a value is compared under, and the
name it is read from the last row by. -/
def namedColumns (table : TableDef) : List (String × String) :=
  let pkColumns := resolvePkColumns table
  if isCompositePk table then (Record.ofList (pkColumns.map fun col => (col, col))).entries
  else [("id", pkColumns.headD "id")]

/-- The column that a result has under a name. -/
def returnedColumn (table : TableDef) (col : String) : Option String :=
  (Record.ofList ((getDefaultColumns table).map fun key =>
    (snakeToCamel key none, camelToSnake key none))).get? col

/-- The columns a cursor compares, as the database spells them. -/
def cursorKeys (table : TableDef) : List String :=
  (namedColumns table).map fun c => camelToSnake c.1 none

/-- The direction of the comparison: that of the first column. -/
def cursorDir (table : TableDef) (orderBy : Option (Record SortDir)) : SortDir :=
  orderDir orderBy (((namedColumns table).map Prod.fst).headD "id")

/-- An order without the columns that have come before. -/
def firstColumns : List String → List (String × SortDir) → List (String × SortDir)
  | _, [] => []
  | seen, (c, d) :: rest =>
    if seen.contains c then firstColumns seen rest
    else (c, d) :: firstColumns (c :: seen) rest

/-- Each compared column is the one its value is read from, and the order
begins with the compared columns, in the direction of the comparison. -/
structure KeyLed (table : TableDef) (orderBy : Option (Record SortDir)) : Prop where
  returned : ∀ c ∈ namedColumns table, returnedColumn table c.2 = some (camelToSnake c.1 none)
  led : firstColumns [] ((cursorKeys table).map fun c => (c, cursorDir table orderBy))
    <+: firstColumns [] (requestedOrder orderBy)

/-- Every listing of the table in this order, of any entity, context,
filter, content and page size, is read completely, when its cursors are
sent. -/
def EveryListComplete (b : Backend) (table : TableDef) (orderBy : Option (Record SortDir)) :
    Prop :=
  ∀ (readText : ReadText) (entity : EntityDefinition) (options : CrudPipelineOptions)
    (ctx : BaseContext) (opts : ListOptions) (store : Store),
    entity.table = table → opts.orderBy = orderBy → 0 < listLimit opts →
    ListAccepted b readText entity options ctx opts store →
    KeyedRows readText table (store table.name) →
    (∀ row, VisibleRow b entity options ctx opts store row → Sent table row) →
      ListsAll b readText entity options ctx opts store

end Vertz.Spec

/-!
## What a page of a listing contains

From the cursor text to the rows of the page behind it.

* `cursor_behind`: a cursor that is sent is compared with the columns of
  `namedColumns`, each with the text of the last row's value.
* `pageFrom_first`, `pageFrom_behind`: a page is the next stretch of the
  visible rows its cursor admits, sorted.
* `keyed_admits`: along an order that begins with the compared columns,
  the cursor behind a row admits what comes later.
* `listsAll_of_keyLed`: such a listing is complete.
-/

namespace Vertz.Proofs

open Vertz.Lib
open Vertz.Lib.Keyset
open Vertz.Db
open Vertz.Db.Sql
open Vertz.Spec
open Vertz.Server.Entity List

/-! ### The cursor behind a row -/

theorem keyText_eq (table : TableDef) (row : SqlRow) (col : String) :
    keyText table row col = jsText (((returnedColumn table col).map row).getD .undefined) := by
  have hrow : mapRow (getDefaultColumns table) row
      = (Record.ofList ((getDefaultColumns table).map fun key =>
          (snakeToCamel key none, camelToSnake key none))).mapValues row := by
    rw [← Record.ofList_mapValues, map_map]
    rfl
  unfold keyText rowField returnedColumn
  rw [hrow, Record.get?_mapValues]

/-- The value a cursor compares a column with. -/
def sentValue (readText : ReadText) (table : TableDef) (row : SqlRow) (c : String × String) : Js :=
  readText (camelToSnake c.1 none) (keyText table row c.2)

theorem namedColumns_ne_nil (table : TableDef) : namedColumns table ≠ [] := by
  unfold namedColumns
  dsimp only
  split
  · rename_i hcomposite
    intro hnil
    obtain ⟨col, hcol⟩ : ∃ col, col ∈ resolvePkColumns table := by
      cases hpk : resolvePkColumns table with
      | nil =>
        rw [isCompositePk, hpk] at hcomposite
        cases hcomposite
      | cons col cols => exact ⟨col, mem_cons_self⟩
    have hget := Record.get?_insertAll_map Record.empty (resolvePkColumns table) (fun k => k) col
    rw [if_pos hcol] at hget
    have hlookup : Record.lookup col
        (Record.ofList ((resolvePkColumns table).map fun col => (col, col))).entries
          = some col := hget
    rw [hnil] at hlookup
    cases hlookup
  · exact cons_ne_nil _ _

theorem jsonObject_head (r : Record String) : (jsonObject r).toList.head? = some '\x7b' := by
  unfold jsonObject
  rw [String.toList_append, String.toList_append]
  rfl

/-- A cursor that is sent is compared column by column. -/
theorem cursor_behind {b : Backend} {table : TableDef} (readText : ReadText) {row : SqlRow}
    (hjson : ParsesCursors b table) (hsent : Sent table row) :
    ∃ cursor, optionalCursor b (some (rowCursor table row)) = .ok (some cursor) ∧
      (readCursor readText cursor).entries
        = (namedColumns table).map fun c => (c.1, sentValue readText table row c) := by
  have hcursorOf : optionalCursor b (some (rowCursor table row))
      = (cursorOf b (rowCursor table row)).map some := by
    unfold optionalCursor
    split
    · rename_i h
      cases h
    · rename_i h
      exact absurd (Option.some.inj h) hsent.nonempty
    · rename_i h
      rw [Option.some.inj h]
  rw [hcursorOf]
  cases hcomposite : isCompositePk table with
  | false =>
    have hplain : ¬ (rowCursor table row).toList.head? = some '\x7b' := hsent.plain hcomposite
    refine ⟨.ofList [("id", .str (rowCursor table row))], ?_, ?_⟩
    · unfold cursorOf
      rw [if_neg hplain]
      rfl
    · have hcols : namedColumns table = [("id", (resolvePkColumns table).headD "id")] := by
        unfold namedColumns
        dsimp only
        rw [if_neg (by rw [hcomposite]; decide)]
      have htext : rowCursor table row
          = keyText table row ((resolvePkColumns table).headD "id") := by
        unfold rowCursor
        dsimp only
        rw [if_neg (by rw [hcomposite]; decide)]
      rw [hcols, htext]
      rfl
  | true =>
    let texts : Record String := .ofList ((resolvePkColumns table).map fun col =>
      (col, keyText table row col))
    have htext : rowCursor table row = jsonObject texts := by
      unfold rowCursor
      dsimp only
      rw [if_pos hcomposite]
    have hcols : namedColumns table
        = (Record.ofList ((resolvePkColumns table).map fun col => (col, col))).entries := by
      unfold namedColumns
      dsimp only
      rw [if_pos hcomposite]
    have htexts : texts.entries
        = (namedColumns table).map fun c => (c.1, keyText table row c.2) := by
      have hmap := Record.ofList_mapValues (keyText table row)
        ((resolvePkColumns table).map fun col => (col, col))
      rw [map_map] at hmap
      rw [hcols]
      exact congrArg Record.entries hmap
    refine ⟨texts.mapValues .str, ?_, ?_⟩
    · unfold cursorOf
      rw [htext, if_pos (jsonObject_head texts), hjson hcomposite texts]
      rfl
    · unfold readCursor
      rw [Record.entries_ofList]
      · show List.map _ (texts.entries.map _) = _
        rw [htexts, map_map, map_map]
        rfl
      · rw [map_map]
        exact (texts.mapValues Js.str).nodup

/-! ### Pages -/

/-- A request that is answered: the rule allows it, the filter is taken
and the order names columns of the table. -/
structure Served (b : Backend) (entity : EntityDefinition) (options : CrudPipelineOptions)
    (ctx : BaseContext) (opts : ListOptions) (store : Store) (f : WhereFilter) (n : ℕ) : Prop where
  access : listAccess entity options ctx = .ok ()
  filter : optionalFilter (listWhere entity options ctx opts.where_ store) = .ok (some f)
  accepted : Accepted b entity.table f
  order : (requestedOrder opts.orderBy).all
    (fun o => (sqlColumns entity.table).contains o.1) = true
  limit : listLimit opts = (n : ℚ)
  positive : 0 < n

/-- The rows the filter matches. -/
def matched (b : Backend) (table : TableDef) (f : WhereFilter) (store : Store) : List SqlRow :=
  (store table.name).filter (filterMatches b.engine none (some f))

/-- Whether the cursor behind `r` admits `x`. -/
def admitsBehind (readText : ReadText) (table : TableDef) (orderBy : Option (Record SortDir))
    (r x : SqlRow) : Bool :=
  compareRow (cursorDir table orderBy != .desc)
    ((namedColumns table).map fun c =>
      (x (camelToSnake c.1 none), sentValue readText table r c)) == .yes

section

variable {b : Backend} {readText : ReadText} {entity : EntityDefinition}
  {options : CrudPipelineOptions} {ctx : BaseContext} {opts : ListOptions} {store : Store}
  {f : WhereFilter} {n : ℕ}

/-- A page that is answered comes from a SELECT that runs. -/
theorem pageFrom_some {after : Option String} {page : List SqlRow × Option String}
    (h : pageFrom b readText entity options ctx opts store after = some page) :
    listAccess entity options ctx = .ok () ∧ ∃ cursor f rows,
      optionalCursor b (listAfter { opts with after }) = .ok cursor ∧
      optionalFilter (listWhere entity options ctx opts.where_ store) = .ok (some f) ∧
      runSelect b entity.table (pageOptions entity.table
        (listQuery entity options ctx { opts with after } store) (some f)
          (cursor.map (readCursor readText))) store = .ok rows := by
  unfold pageFrom listPage at h
  cases hacc : listAccess entity options ctx with
  | error message =>
    rw [hacc] at h
    cases h
  | ok u =>
    rw [hacc] at h
    refine ⟨rfl, ?_⟩
    cases hpage : adapterPage b readText entity.table
        (listQuery entity options ctx { opts with after } store) store with
    | error message =>
      dsimp only at h
      rw [hpage] at h
      cases h
    | ok rows =>
      obtain ⟨cursor, hcursor, hrun⟩ := bind_eq_ok hpage
      obtain ⟨where_, hwhere, hrun⟩ := bind_eq_ok hrun
      obtain ⟨w, hw⟩ := listWhere_isSome entity options ctx opts.where_ store
      have hfilter : ∃ f, where_ = some f := by
        have hopt : optionalFilter (some w) = .ok where_ := by
          rw [← hw]
          exact hwhere
        cases hf : whereFilter w with
        | error msg =>
          rw [optionalFilter, hf] at hopt
          cases hopt
        | ok f =>
          rw [optionalFilter, hf] at hopt
          cases hopt
          exact ⟨f, rfl⟩
      obtain ⟨f, rfl⟩ := hfilter
      exact ⟨cursor, f, rows, hcursor, hwhere, hrun⟩

theorem served_of_accepted (h : ListAccepted b readText entity options ctx opts store)
    (hpos : 0 < listLimit opts) : ∃ f n, Served b entity options ctx opts store f n := by
  obtain ⟨page, hpage⟩ := h
  obtain ⟨hacc, cursor, f, rows, hcursor, hfilter, hrun⟩ := pageFrom_some hpage
  cases hcursor
  obtain ⟨haccepted, hknown, hfetch⟩ := runSelect_accepted rfl rfl hrun
  obtain ⟨n, hn⟩ : ∃ n, rowCount (some (.value (.num (listLimit opts)))) = some n := by
    unfold fetch at hfetch
    obtain ⟨c, -, hfetch⟩ := Option.bind_eq_some_iff.mp hfetch
    obtain ⟨page, -, hfetch⟩ := Option.bind_eq_some_iff.mp hfetch
    obtain ⟨n, hn, -⟩ := Option.map_eq_some_iff.mp hfetch
    exact ⟨n, hn⟩
  have hlimit : listLimit opts = (n : ℚ) := rowCount_num hn
  refine ⟨f, n, hacc, hfilter, haccepted, ?_, hlimit, ?_⟩
  · unfold knownSelect at hknown
    rw [Bool.and_eq_true] at hknown
    exact hknown.2
  · rw [hlimit] at hpos
    exact_mod_cast hpos

theorem nextCursor_take (table : TableDef) (hn : 0 < n) (xs : List SqlRow) :
    (xs.take n, nextCursor table (n : ℚ) (xs.take n)) = stretch n (rowCursor table) xs := by
  have hpos : (0 : ℚ) < (n : ℚ) := by exact_mod_cast hn
  have hfull : ((xs.take n).length : ℚ) = (n : ℚ) ↔ n ≤ xs.length := by
    rw [Nat.cast_inj, length_take]
    omega
  unfold nextCursor stretch
  by_cases h : n ≤ xs.length
  · rw [if_pos ⟨hpos, hfull.mpr h⟩, if_pos h]
  · rw [if_neg fun hc => h (hfull.mp hc.2), if_neg h]

theorem pageFrom_eq (hserved : Served b entity options ctx opts store f n)
    {after : Option String} {cursor : Option (Record Js)}
    (hcursor : optionalCursor b (listAfter { opts with after }) = .ok cursor)
    (horder : (buildOrderBy none opts.orderBy (cursor.map (readCursor readText))).all
      (fun o => (sqlColumns entity.table).contains o.1) = true)
    (hknown : ∀ cur, cursorOfOptions (pageOptions entity.table
        (listQuery entity options ctx { opts with after } store) (some f)
          (cursor.map (readCursor readText))) = some cur →
      cur.columns.all (sqlColumns entity.table).contains = true) :
    pageFrom b readText entity options ctx opts store after
      = some (stretch n (rowCursor entity.table)
          (((matched b entity.table f store).filter fun x =>
            (cursorOfOptions (pageOptions entity.table
              (listQuery entity options ctx { opts with after } store) (some f)
                (cursor.map (readCursor readText)))).all fun cur => cursorValue x cur == .yes).mergeSort
            (orderLe b.engine.dialect
              (buildOrderBy none opts.orderBy (cursor.map (readCursor readText)))))) := by
  have hrun := @runSelect_page b entity.table store (pageOptions entity.table
      (listQuery entity options ctx { opts with after } store) (some f)
        (cursor.map (readCursor readText))) f n rfl rfl rfl horder hknown
      (congrArg some hserved.limit) rfl hserved.accepted
  have hpage : adapterPage b readText entity.table
      (listQuery entity options ctx { opts with after } store) store
      = runSelect b entity.table (pageOptions entity.table
        (listQuery entity options ctx { opts with after } store) (some f)
          (cursor.map (readCursor readText))) store := by
    have hcur : optionalCursor b
        (listQuery entity options ctx { opts with after } store).after = .ok cursor := hcursor
    have hwhere : optionalFilter
        (listQuery entity options ctx { opts with after } store).where_ = .ok (some f) :=
      hserved.filter
    unfold adapterPage
    rw [hcur, Except.bind, hwhere]
    rfl
  unfold pageFrom listPage
  rw [hserved.access]
  dsimp only
  rw [hpage, hrun]
  show some (_, nextCursor entity.table (listLimit { opts with after }) _) = _
  have hlimit : listLimit { opts with after } = (n : ℚ) := hserved.limit
  rw [hlimit, nextCursor_take entity.table hserved.positive]
  congr 3
  unfold matched
  rw [filter_filter]
  exact filter_congr fun x _ => Bool.and_comm _ _

theorem pageFrom_first (hserved : Served b entity options ctx opts store f n) :
    pageFrom b readText entity options ctx opts store none
      = some (stretch n (rowCursor entity.table)
          ((matched b entity.table f store).mergeSort
            (orderLe b.engine.dialect (requestedOrder opts.orderBy)))) := by
  have hpage := @pageFrom_eq b readText entity options ctx opts store f n hserved none none rfl
    hserved.order (fun cur h => by cases h)
  rw [hpage]
  congr 3
  exact filter_eq_self.mpr fun x _ => rfl

theorem cursorOfOptions_behind {row : SqlRow} {cursor : Record Js} {query : ListQuery}
    (hentries : (readCursor readText cursor).entries
      = (namedColumns entity.table).map fun c =>
        (c.1, sentValue readText entity.table row c)) :
    ∃ cur, cursorOfOptions (pageOptions entity.table query (some f)
        (some (readCursor readText cursor))) = some cur ∧
      cur.columns = cursorKeys entity.table ∧
      ∀ x, (cursorValue x cur == .yes)
        = admitsBehind readText entity.table query.orderBy row x := by
  cases hcols : namedColumns entity.table with
  | nil => exact absurd hcols (namedColumns_ne_nil entity.table)
  | cons c cs =>
    rw [hcols, map_cons] at hentries
    refine ⟨⟨(c :: cs).map fun c => camelToSnake c.1 none,
      orderDir query.orderBy c.1 != .desc,
      ((c :: cs).map fun c => Param.value (sentValue readText entity.table row c)).map some⟩,
      ?_, ?_, fun x => ?_⟩
    · have hcursor : ((pageOptions entity.table query (some f)
          (some (readCursor readText cursor))).cursor.map Record.entries).getD [] =
        (readCursor readText cursor).entries := rfl
      rw [cursorOfOptions, hcursor, hentries]
      simp only [map_cons, map_map, pageOptions]
      rfl
    · unfold cursorKeys
      rw [hcols]
    · unfold cursorValue admitsBehind cursorDir
      rw [hcols, map_map, map_map, map_map, zip_map']
      rfl

theorem listAfter_sent {row : SqlRow} (hsent : Sent entity.table row) :
    listAfter { opts with after := some (rowCursor entity.table row) }
      = some (rowCursor entity.table row) := by
  unfold listAfter
  rw [Option.filter_some, if_pos]
  have hshort := hsent.short
  simpa using ⟨hsent.nonempty, hshort⟩

/-- The order of a page, whose cursor's columns are the fallback. -/
def pageOrder (table : TableDef) (orderBy : Option (Record SortDir)) : List (String × SortDir) :=
  match orderBy with
  | some _ => requestedOrder orderBy
  | none => (cursorKeys table).map fun c => (c, .asc)

/-- The page behind a row is the next stretch of the matched rows its
cursor admits, sorted. -/
theorem pageFrom_behind (hserved : Served b entity options ctx opts store f n)
    (hjson : ParsesCursors b entity.table) {row : SqlRow} (hsent : Sent entity.table row)
    (hknown : (cursorKeys entity.table).all (sqlColumns entity.table).contains = true) :
    pageFrom b readText entity options ctx opts store (some (rowCursor entity.table row))
      = some (stretch n (rowCursor entity.table)
          (((matched b entity.table f store).filter
            (admitsBehind readText entity.table opts.orderBy row)).mergeSort
              (orderLe b.engine.dialect (pageOrder entity.table opts.orderBy)))) := by
  obtain ⟨cursor, hcursor, hentries⟩ := cursor_behind readText hjson hsent
  obtain ⟨cur, hcur, hcolumns, hadmits⟩ := @cursorOfOptions_behind readText entity f row cursor
    (listQuery entity options ctx
      { opts with after := some (rowCursor entity.table row) } store) hentries
  have horder : buildOrderBy none opts.orderBy ((some cursor).map (readCursor readText))
      = pageOrder entity.table opts.orderBy := by
    unfold pageOrder
    cases opts.orderBy with
    | some o => rfl
    | none =>
      show ((readCursor readText cursor).entries.map Prod.fst).map _ = _
      rw [hentries, map_map, map_map]
      unfold cursorKeys
      rw [map_map]
      rfl
  have hpage := @pageFrom_eq b readText entity options ctx opts store f n hserved
    (some (rowCursor entity.table row)) (some cursor)
    (by rw [listAfter_sent hsent]; exact hcursor)
    (by
      rw [horder]
      unfold pageOrder
      cases ho : opts.orderBy with
      | some o =>
        have hord := hserved.order
        rwa [ho] at hord
      | none =>
        rw [all_map]
        exact hknown)
    (fun c hc => by
      have hsame : some c = some cur := hc.symm.trans hcur
      rw [Option.some.inj hsame, hcolumns]
      exact hknown)
  rw [hpage, horder]
  congr 3
  refine filter_congr fun x _ => ?_
  have hall : (cursorOfOptions (pageOptions entity.table (listQuery entity options ctx
      { opts with after := some (rowCursor entity.table row) } store) (some f)
        ((some cursor).map (readCursor readText)))).all (fun cur => cursorValue x cur == .yes)
      = (cursorValue x cur == .yes) := by
    have hcur' := hcur
    rw [Option.map_some, hcur']
    rfl
  rw [hall]
  exact hadmits x

/-- A page behind a cursor is answered only where the compared columns
are there. -/
theorem cursorKeys_known_of_page (hjson : ParsesCursors b entity.table) {row : SqlRow}
    (hsent : Sent entity.table row) {page : List SqlRow × Option String}
    (h : pageFrom b readText entity options ctx opts store (some (rowCursor entity.table row))
      = some page) :
    (cursorKeys entity.table).all (sqlColumns entity.table).contains = true := by
  obtain ⟨-, cursor, f, rows, hcursor, -, hrun⟩ := pageFrom_some h
  obtain ⟨cursor', hcursor', hentries⟩ := cursor_behind readText hjson hsent
  rw [listAfter_sent hsent, hcursor'] at hcursor
  cases hcursor
  obtain ⟨-, hknown, -⟩ := runSelect_accepted rfl rfl hrun
  obtain ⟨cur, hcur, hcolumns, -⟩ := @cursorOfOptions_behind readText entity f row cursor'
    (listQuery entity options ctx
      { opts with after := some (rowCursor entity.table row) } store) hentries
  unfold knownSelect at hknown
  rw [Bool.and_eq_true, Bool.and_eq_true] at hknown
  have hparts := hknown.1.2
  rw [selectMeant_wheres] at hparts
  have hcur' : cursorOfOptions (pageOptions entity.table (listQuery entity options ctx
      { opts with after := some (rowCursor entity.table row) } store) (some f)
        ((some cursor').map (readCursor readText))) = some cur := hcur
  rw [hcur'] at hparts
  unfold pageWheres at hparts
  rw [all_append, Bool.and_eq_true] at hparts
  have hlast : (cur.columns.all (sqlColumns entity.table).contains && true) = true := hparts.2
  rwa [Bool.and_true, hcolumns] at hlast

theorem visibleRow_iff (hserved : Served b entity options ctx opts store f n) (row : SqlRow) :
    VisibleRow b entity options ctx opts store row ↔ row ∈ matched b entity.table f store := by
  obtain ⟨w, hw⟩ := listWhere_isSome entity options ctx opts.where_ store
  have hf : whereFilter w = .ok f := by
    have hfilter := hserved.filter
    rw [hw] at hfilter
    cases hbuilt : whereFilter w with
    | error msg =>
      rw [optionalFilter, hbuilt] at hfilter
      cases hfilter
    | ok g =>
      rw [optionalFilter, hbuilt] at hfilter
      cases hfilter
      rfl
  unfold matched
  rw [mem_filter]
  constructor
  · rintro ⟨hrow, w', hw', g, hg, hselects⟩
    rw [hw] at hw'
    cases hw'
    rw [hf] at hg
    cases hg
    exact ⟨hrow, beq_iff_eq.mpr hselects.value⟩
  · rintro ⟨hrow, hmatch⟩
    exact ⟨hrow, w, hw, f, hf, hserved.accepted.entries, hserved.accepted.columns,
      hserved.accepted.readable, beq_iff_eq.mp hmatch⟩

end

/-! ### The columns of the key -/

/-- The one column whose SQL name is `id` is returned under its own
name. -/
theorem snakeToCamel_of_id {key : String} (h : camelToSnake key none = "id") :
    snakeToCamel key none = key := by
  have hne : ¬ key = "" := by
    intro hempty
    rw [hempty] at h
    exact absurd h (by decide)
  have hchars : snakeChars none key.toList = ['i', 'd'] := by
    unfold camelToSnake at h
    rw [if_neg hne] at h
    have hlist := congrArg String.toList h
    rw [Option.bind_none] at hlist
    dsimp only at hlist
    rwa [String.toList_ofList] at hlist
  have hlength : ∀ cs prev, cs.length ≤ (snakeChars prev cs).length := by
    intro cs
    induction cs with
    | nil => exact fun _ => le_rfl
    | cons c cs ih =>
      intro prev
      rw [snakeChars]
      have hrest := ih (some c)
      split
      · simp only [length_cons]
        omega
      · simp only [length_cons]
        omega
  have hshort : key.toList.length ≤ 2 := by
    have hle := hlength key.toList none
    rwa [hchars] at hle
  have hcamel : camelChars key.toList = key.toList := by
    match key.toList, hshort with
    | [], _ => rfl
    | [c], _ => rfl
    | [c, c'], _ => simp [camelChars]
  unfold snakeToCamel
  rw [if_neg hne, Option.bind_none]
  dsimp only
  rw [hcamel]
  exact String.ofList_toList

theorem returnedColumn_mem {table : TableDef} {col c : String}
    (h : returnedColumn table col = some c) :
    ∃ key ∈ getDefaultColumns table, snakeToCamel key none = col ∧ camelToSnake key none = c := by
  have hmem := Record.mem_of_mem_ofList ((Record.mem_entries_iff _).mpr h)
  obtain ⟨key, hkey, heq⟩ := mem_map.mp hmem
  cases heq
  exact ⟨key, hkey, rfl, rfl⟩

theorem returnedColumn_known {table : TableDef} {col c : String}
    (h : returnedColumn table col = some c) : c ∈ sqlColumns table := by
  obtain ⟨key, hkey, -, rfl⟩ := returnedColumn_mem h
  obtain ⟨e, he, rfl⟩ := mem_map.mp hkey
  exact mem_map.mpr ⟨e.1, mem_map.mpr ⟨e, (mem_filter.mp he).1, rfl⟩, rfl⟩

section

variable {table : TableDef}
  (hreturned : ∀ c ∈ namedColumns table, returnedColumn table c.2 = some (camelToSnake c.1 none))

include hreturned

/-- The compared columns are the columns of the key. -/
theorem mem_cursorKeys_iff (sql : String) : sql ∈ cursorKeys table ↔
    ∃ col ∈ resolvePkColumns table, camelToSnake col none = sql := by
  unfold cursorKeys
  unfold namedColumns at hreturned ⊢
  dsimp only at hreturned ⊢
  by_cases hcomposite : isCompositePk table = true
  · rw [if_pos hcomposite, mem_map]
    constructor
    · rintro ⟨c, hc, rfl⟩
      obtain ⟨col, hcol, heq⟩ := mem_map.mp (Record.mem_of_mem_ofList hc)
      cases heq
      exact ⟨col, hcol, rfl⟩
    · rintro ⟨col, hcol, rfl⟩
      have hget := Record.get?_insertAll_map Record.empty (resolvePkColumns table) (fun k => k) col
      rw [if_pos hcol] at hget
      exact ⟨(col, col), (Record.mem_entries_iff _).mpr hget, rfl⟩
  · rw [if_neg hcomposite] at hreturned ⊢
    -- a single key is the column `id`
    obtain ⟨pk, hpk⟩ : ∃ pk, resolvePkColumns table = [pk] := by
      have hone : ¬ 1 < (resolvePkColumns table).length := fun h =>
        hcomposite (decide_eq_true h)
      cases hcols : resolvePkColumns table with
      | nil =>
        unfold resolvePkColumns at hcols
        split at hcols
        · cases hcols
        · rename_i hempty
          rw [hcols] at hempty
          exact absurd rfl hempty
      | cons pk rest =>
        cases rest with
        | nil => exact ⟨pk, rfl⟩
        | cons pk' rest =>
          rw [hcols] at hone
          simp at hone
    have hid : camelToSnake pk none = "id" := by
      have hret : returnedColumn table pk = some (camelToSnake "id" none) :=
        hreturned ("id", pk) (by rw [hpk]; exact mem_singleton.mpr rfl)
      obtain ⟨key, -, hcamel, hsnake⟩ := returnedColumn_mem hret
      have hsnakeId : camelToSnake key none = "id" := hsnake.trans (by decide)
      have hkey : snakeToCamel key none = key := snakeToCamel_of_id hsnakeId
      rw [← hcamel, hkey]
      exact hsnakeId
    rw [hpk]
    simp only [List.map_cons, List.map_nil, List.mem_singleton, exists_eq_left]
    rw [hid]
    exact eq_comm

theorem cursorKeys_known : (cursorKeys table).all (sqlColumns table).contains = true := by
  rw [all_eq_true]
  intro sql hsql
  obtain ⟨c, hc, rfl⟩ := mem_map.mp hsql
  rw [contains_iff_mem]
  exact returnedColumn_known (hreturned c hc)

/-- Where the key is returned, the cursor compares it with itself. -/
theorem sentValue_returned {readText : ReadText} {rows : List SqlRow}
    (hkeyed : KeyedRows readText table rows) {row : SqlRow} (hrow : row ∈ rows)
    {c : String × String} (hc : c ∈ namedColumns table) :
    sentValue readText table row c = row (camelToSnake c.1 none) := by
  obtain ⟨col, hcol, heq⟩ := (mem_cursorKeys_iff hreturned (camelToSnake c.1 none)).mp
    (mem_map.mpr ⟨c, hc, rfl⟩)
  have hback := hkeyed.readBack row hrow col hcol
  rw [heq] at hback
  unfold sentValue
  rw [keyText_eq, hreturned c hc]
  exact hback

theorem admitsBehind_returned {readText : ReadText} {rows : List SqlRow}
    (hkeyed : KeyedRows readText table rows) {r : SqlRow} (hr : r ∈ rows)
    (orderBy : Option (Record SortDir)) (x : SqlRow) :
    admitsBehind readText table orderBy r x
      = (compareRow (cursorDir table orderBy != .desc)
          ((cursorKeys table).map fun c => (x c, r c)) == .yes) := by
  unfold admitsBehind cursorKeys
  rw [map_map]
  have hpairs : ((namedColumns table).map fun c =>
      (x (camelToSnake c.1 none), sentValue readText table r c))
      = (namedColumns table).map fun c =>
        (x (camelToSnake c.1 none), r (camelToSnake c.1 none)) := by
    refine map_congr_left fun c hc => ?_
    rw [sentValue_returned hreturned hkeyed hr hc]
  rw [hpairs]
  rfl

end

/-! ### Orders and comparisons without repetitions -/

theorem mem_firstColumns {e : String × SortDir} : ∀ {order : List (String × SortDir)}
    {seen : List String}, e ∈ firstColumns seen order → e ∈ order
  | [], _, h => by cases h
  | (c, d) :: rest, seen, h => by
      rw [firstColumns] at h
      split at h
      · exact mem_cons_of_mem _ (mem_firstColumns h)
      · rw [mem_cons] at h
        rcases h with rfl | h
        · exact mem_cons_self
        · exact mem_cons_of_mem _ (mem_firstColumns h)

theorem firstColumns_reaches {c : String} : ∀ {order : List (String × SortDir)}
    {seen : List String}, c ∈ order.map Prod.fst →
      c ∈ seen ∨ c ∈ (firstColumns seen order).map Prod.fst
  | [], _, h => by cases h
  | (c', d) :: rest, seen, h => by
      rw [firstColumns]
      rw [map_cons, mem_cons] at h
      by_cases hseen : seen.contains c' = true
      · rw [if_pos hseen]
        rcases h with rfl | h
        · exact .inl (contains_iff_mem.mp hseen)
        · exact firstColumns_reaches h
      · rw [if_neg hseen, map_cons, mem_cons]
        rcases h with rfl | h
        · exact .inr (.inl rfl)
        · rcases @firstColumns_reaches _ _ (c' :: seen) h with hin | hin
          · rcases mem_cons.mp hin with rfl | hin
            · exact .inr (.inl rfl)
            · exact .inl hin
          · exact .inr (.inr hin)

/-- No column comes twice, or comes again. -/
theorem firstColumns_fresh : ∀ (order : List (String × SortDir)) (seen : List String),
    ((firstColumns seen order).map Prod.fst).Nodup ∧
      ∀ c ∈ (firstColumns seen order).map Prod.fst, c ∉ seen
  | [], _ => ⟨nodup_nil, fun _ h => by cases h⟩
  | (c, d) :: rest, seen => by
      rw [firstColumns]
      by_cases hseen : seen.contains c = true
      · rw [if_pos hseen]
        exact firstColumns_fresh rest seen
      · rw [if_neg hseen, map_cons, nodup_cons]
        obtain ⟨hnodup, hfresh⟩ := firstColumns_fresh rest (c :: seen)
        refine ⟨⟨fun hc => hfresh c hc mem_cons_self, hnodup⟩, fun c' hc' => ?_⟩
        rcases mem_cons.mp hc' with rfl | hc'
        · exact fun h => hseen (contains_iff_mem.mpr h)
        · exact fun h => hfresh c' hc' (mem_cons_of_mem _ h)

/-- A column that ties before does not decide again. -/
theorem orderLe_firstColumns {d : DialectName} {r s : SqlRow} :
    ∀ (order : List (String × SortDir)) (seen : List String),
      (∀ c ∈ seen, sortKey d (r c) = sortKey d (s c)) →
      orderLe d (firstColumns seen order) r s = orderLe d order r s
  | [], _, _ => rfl
  | (c, dir) :: rest, seen, h => by
      rw [firstColumns]
      by_cases hseen : seen.contains c = true
      · rw [if_pos hseen, orderLe_cons, if_pos (h c (contains_iff_mem.mp hseen))]
        exact orderLe_firstColumns rest seen h
      · rw [if_neg hseen, orderLe_cons, orderLe_cons]
        by_cases heq : sortKey d (r c) = sortKey d (s c)
        · rw [if_pos heq, if_pos heq]
          refine orderLe_firstColumns rest (c :: seen) fun c' hc' => ?_
          rcases mem_cons.mp hc' with rfl | hc'
          · exact heq
          · exact h c' hc'
        · rw [if_neg heq, if_neg heq]

theorem compareRow_firstColumns {greater : Bool} {x r : SqlRow} :
    ∀ (order : List (String × SortDir)) (seen : List String),
      (∀ e ∈ order, (r e.1).isNullish = false) → (∀ c ∈ seen, x c = r c) →
      compareRow greater ((firstColumns seen order).map fun e => (x e.1, r e.1))
        = compareRow greater (order.map fun e => (x e.1, r e.1))
  | [], _, _, _ => rfl
  | (c, d) :: rest, seen, hpresent, h => by
      rw [forall_mem_cons] at hpresent
      rw [firstColumns]
      by_cases hseen : seen.contains c = true
      · have heq : x c = r c := h c (contains_iff_mem.mp hseen)
        rw [if_pos hseen, compareRow_firstColumns rest seen hpresent.2 h, map_cons,
          compareRow, heq, hpresent.1, Bool.or_self, if_neg Bool.false_ne_true, if_pos rfl]
      · rw [if_neg hseen, map_cons, map_cons, compareRow, compareRow]
        by_cases heq : x c = r c
        · rw [if_pos heq, if_pos heq]
          have hih := @compareRow_firstColumns greater x r rest (c :: seen) hpresent.2
            (fun c' hc' => by
              rcases mem_cons.mp hc' with rfl | hc'
              · exact heq
              · exact h c' hc')
          rw [hih]
        · rw [if_neg heq, if_neg heq]

/-- Where the order begins with the compared columns, the cursor behind
`r` admits what comes later. -/
theorem keyed_admits {d : DialectName} {dir : SortDir} {x r : SqlRow}
    (post : List (String × SortDir)) :
    ∀ keys : List (String × SortDir), (∀ e ∈ keys, e.2 = dir) →
      (∀ e ∈ keys, (x e.1).isNullish = false ∧ (r e.1).isNullish = false) →
      (∃ e ∈ keys, x e.1 ≠ r e.1) →
      (compareRow (dir != .desc) (keys.map fun e => (x e.1, r e.1)) = .yes ↔
        orderLe d (keys ++ post) r x = true)
  | [], _, _, hne => by
      obtain ⟨e, he, -⟩ := hne
      cases he
  | (c, d') :: keys, hdir, hpresent, hne => by
      rw [forall_mem_cons] at hdir hpresent
      obtain ⟨rfl, hdir⟩ := hdir
      obtain ⟨⟨hx, hr⟩, hpresent⟩ := hpresent
      rw [map_cons, cons_append, orderLe_cons]
      by_cases heq : x c = r c
      · have hrest : ∃ e ∈ keys, x e.1 ≠ r e.1 := by
          obtain ⟨e, he, hdiff⟩ := hne
          rcases mem_cons.mp he with rfl | he
          · exact absurd heq hdiff
          · exact ⟨e, he, hdiff⟩
        have hih := keyed_admits (d := d) post keys hdir hpresent hrest
        rw [if_pos (by rw [heq]), compareRow, hx, hr, Bool.or_self, if_neg Bool.false_ne_true,
          if_pos heq]
        exact hih
      · have hkey : sortKey d (r c) ≠ sortKey d (x c) := fun h =>
          heq ((sortKey_eq_iff d hr hx).mp h).symm
        rw [compareRow_differ hx hr heq, if_neg hkey]
        cases d' with
        | asc =>
          show Tri.ofBool (decide (r c < x c)) = .yes ↔ decide (sortKey d (r c) < sortKey d (x c)) = true
          rw [decide_eq_true_eq, sortKey_lt_iff d hr hx]
          by_cases hlt : r c < x c <;> simp [hlt, Tri.ofBool]
        | desc =>
          show Tri.ofBool (decide (x c < r c)) = .yes ↔ decide (sortKey d (x c) < sortKey d (r c)) = true
          rw [decide_eq_true_eq, sortKey_lt_iff d hx hr]
          by_cases hlt : x c < r c <;> simp [hlt, Tri.ofBool]

/-! ### Complete listings -/

/-- The compared columns, with the direction of the comparison. -/
def directedKeys (table : TableDef) (orderBy : Option (Record SortDir)) :
    List (String × SortDir) :=
  (cursorKeys table).map fun c => (c, cursorDir table orderBy)

theorem compareRow_directedKeys {table : TableDef} (orderBy : Option (Record SortDir))
    {x r : SqlRow} (hpresent : ∀ c ∈ cursorKeys table, (r c).isNullish = false) (greater : Bool) :
    compareRow greater ((cursorKeys table).map fun c => (x c, r c))
      = compareRow greater
        ((firstColumns [] (directedKeys table orderBy)).map fun e => (x e.1, r e.1)) := by
  rw [compareRow_firstColumns (directedKeys table orderBy) []
    (fun e he => by
      obtain ⟨c, hc, rfl⟩ := mem_map.mp he
      exact hpresent c hc)
    (fun c hc => by cases hc)]
  unfold directedKeys
  rw [map_map]
  rfl

/-- A listing whose order begins with its compared columns is read
completely. -/
theorem listsAll_of_keyLed {b : Backend} {readText : ReadText} {entity : EntityDefinition}
    {options : CrudPipelineOptions} {ctx : BaseContext} {opts : ListOptions} {store : Store}
    (hled : KeyLed entity.table opts.orderBy) (hjson : ParsesCursors b entity.table)
    (hpos : 0 < listLimit opts) (haccepted : ListAccepted b readText entity options ctx opts store)
    (hkeyed : KeyedRows readText entity.table (store entity.table.name))
    (hsent : ∀ row, VisibleRow b entity options ctx opts store row → Sent entity.table row) :
    ListsAll b readText entity options ctx opts store := by
  obtain ⟨f, n, hserved⟩ := served_of_accepted haccepted hpos
  have hmatched : ∀ row ∈ matched b entity.table f store, row ∈ store entity.table.name :=
    fun row h => (mem_filter.mp h).1
  obtain ⟨post, hpost⟩ := hled.led
  have hdirs : ∀ e ∈ firstColumns [] (directedKeys entity.table opts.orderBy),
      e.2 = cursorDir entity.table opts.orderBy := by
    intro e he
    obtain ⟨c, -, rfl⟩ := mem_map.mp (mem_firstColumns he)
    rfl
  -- the key columns are present and tell two rows apart
  have hpresent : ∀ row ∈ store entity.table.name, ∀ c ∈ cursorKeys entity.table,
      (row c).isNullish = false := by
    intro row hrow c hc
    obtain ⟨col, hcol, rfl⟩ := (mem_cursorKeys_iff hled.returned c).mp hc
    exact hkeyed.present row hrow col hcol
  have hfirstPresent : ∀ row ∈ store entity.table.name,
      ∀ e ∈ firstColumns [] (directedKeys entity.table opts.orderBy),
        (row e.1).isNullish = false := by
    intro row hrow e he
    obtain ⟨c, hc, rfl⟩ := mem_map.mp (mem_firstColumns he)
    exact hpresent row hrow c hc
  have hnodup : (store entity.table.name).Nodup := by
    refine hkeyed.unique.imp fun {r s} h => ?_
    rintro rfl
    obtain ⟨col, -, hne⟩ := h
    exact hne rfl
  have hdiffer : ∀ r ∈ store entity.table.name, ∀ x ∈ store entity.table.name, r ≠ x →
      ∃ e ∈ firstColumns [] (directedKeys entity.table opts.orderBy), x e.1 ≠ r e.1 := by
    intro r hr x hx hrx
    obtain ⟨col, hcol, hne⟩ : ∃ col ∈ resolvePkColumns entity.table,
        x (camelToSnake col none) ≠ r (camelToSnake col none) := by
      have hsymm : Std.Symm fun r s : SqlRow => ∃ col ∈ resolvePkColumns entity.table,
          r (camelToSnake col none) ≠ s (camelToSnake col none) :=
        ⟨fun r s ⟨col, hcol, hne⟩ => ⟨col, hcol, hne.symm⟩⟩
      exact List.Pairwise.forall hkeyed.unique hx hr (Ne.symm hrx)
    have hkey : camelToSnake col none ∈ cursorKeys entity.table :=
      (mem_cursorKeys_iff hled.returned _).mpr ⟨col, hcol, rfl⟩
    have hfirst : camelToSnake col none ∈ (directedKeys entity.table opts.orderBy).map Prod.fst := by
      unfold directedKeys
      rw [map_map]
      exact mem_map.mpr ⟨_, hkey, rfl⟩
    rcases @firstColumns_reaches _ _ [] hfirst with hin | hin
    · cases hin
    · obtain ⟨e, he, heq⟩ := mem_map.mp hin
      refine ⟨e, he, ?_⟩
      rw [heq]
      exact hne
  have horderSome : ∃ o, opts.orderBy = some o := by
    cases ho : opts.orderBy with
    | some o => exact ⟨o, rfl⟩
    | none =>
      -- an empty order begins with no column
      rw [ho] at hpost
      have hnil : firstColumns [] (directedKeys entity.table none) = [] :=
        (append_eq_nil_iff.mp hpost).1
      obtain ⟨c, hc⟩ : ∃ c, c ∈ directedKeys entity.table none :=
        exists_mem_of_ne_nil _ (by
          unfold directedKeys cursorKeys
          simpa using namedColumns_ne_nil entity.table)
      rcases @firstColumns_reaches _ _ [] (mem_map.mpr ⟨c, hc, rfl⟩) with hin | hin
      · cases hin
      · rw [hnil] at hin
        cases hin
  have hpageOrder : pageOrder entity.table opts.orderBy = requestedOrder opts.orderBy := by
    obtain ⟨o, ho⟩ := horderSome
    rw [ho]
    rfl
  have hle : ∀ r s, orderLe b.engine.dialect (requestedOrder opts.orderBy) r s
      = orderLe b.engine.dialect
        (firstColumns [] (directedKeys entity.table opts.orderBy) ++ post) r s := by
    intro r s
    have hsame : firstColumns [] (directedKeys entity.table opts.orderBy) ++ post
        = firstColumns [] (requestedOrder opts.orderBy) := hpost
    rw [hsame, orderLe_firstColumns _ [] fun c hc => by cases hc]
  have hreads := @reads_mergeSort SqlRow String
    (pageFrom b readText entity options ctx opts store) n (rowCursor entity.table)
    (orderLe b.engine.dialect (requestedOrder opts.orderBy))
    (fun a b' c => orderLe_trans _ _ a b' c) (orderLe_total _ _) hserved.positive
    (matched b entity.table f store)
    (admitsBehind readText entity.table opts.orderBy)
    (pageFrom_first hserved)
    (fun r hr => by
      have hpage := @pageFrom_behind b readText entity options ctx opts store f n hserved hjson r
        (hsent r ((visibleRow_iff hserved r).mpr hr)) (cursorKeys_known hled.returned)
      rwa [hpageOrder] at hpage)
    (hnodup.filter _)
    (fun r hr s hs hrs hsr => by
      by_contra hne
      obtain ⟨e, he, hdiff⟩ := hdiffer r (hmatched r hr) s (hmatched s hs) hne
      rw [hle] at hrs hsr
      have htie := orderLe_antisymm hrs hsr e (mem_append_left _ he)
      exact hdiff ((sortKey_eq_iff _ (hfirstPresent r (hmatched r hr) e he)
        (hfirstPresent s (hmatched s hs) e he)).mp htie).symm)
    (fun r hr x hx => by
      rw [admitsBehind_returned hled.returned hkeyed (hmatched r hr),
        compareRow_directedKeys opts.orderBy (hpresent r (hmatched r hr)), beq_iff_eq]
      by_cases hrx : r = x
      · subst hrx
        have hself := compareRow_self (cursorDir entity.table opts.orderBy != .desc) r
          ((firstColumns [] (directedKeys entity.table opts.orderBy)).map Prod.fst)
        rw [map_map] at hself
        exact ⟨fun h => absurd h hself, fun h => absurd rfl h.2⟩
      · rw [hle]
        have hadm := @keyed_admits b.engine.dialect (cursorDir entity.table opts.orderBy) x r post
          (firstColumns [] (directedKeys entity.table opts.orderBy)) hdirs
          (fun e he => ⟨hfirstPresent x (hmatched x hx) e he,
            hfirstPresent r (hmatched r hr) e he⟩)
          (hdiffer r (hmatched r hr) x (hmatched x hx) hrx)
        exact ⟨fun h => ⟨hadm.mp h, hrx⟩, fun h => hadm.mpr h.1⟩)
  refine ⟨_, hreads, ?_, fun row => ?_, ?_⟩
  · exact (mergeSort_perm _ _).nodup_iff.mpr (hnodup.filter _)
  · rw [mem_mergeSort]
    exact (visibleRow_iff hserved row).symm
  · exact pairwise_mergeSort (fun a b' c => orderLe_trans _ _ a b' c) (orderLe_total _ _) _

end Vertz.Proofs
