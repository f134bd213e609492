import Vertz.Db.Query.Crud
import Vertz.Proofs.Placeholders

/-!
# `Vertz.Proofs.BatchInserts`: what a batch insert stores

An INSERT has one column list for all its tuples, the keys of the first
row. A key no other row shares with it is left out of its tuple, and a
key a row does not have is stored as `undefined`.
-/

namespace Vertz.Proofs

open Vertz.Lib
open Vertz.Db
open Vertz.Db.Sql
open Vertz.Db.Query
open Vertz.Spec List

/-! ### What a statement stores -/

/-- The text of a value in a tuple, the value in place. -/
def storedCell (nowColumns : List String) (dialect : Dialect) (key : String) (value : Param) :
    SqlText (Option Param) :=
  if nowColumns.contains key && isNowSentinel value then [.text dialect.now]
  else [.hole (some value)]

/-- The columns of an INSERT. -/
def insertColumns {H : Type} : InsertSql H → List String
  | .defaultValues _ => []
  | .values _ columns _ _ _ => columns

/-- The tuples of an INSERT, their parameters in place. -/
def boundTuples (r : InsertResult) : List (List (SqlText (Option Param))) :=
  match r.sql with
  | .defaultValues _ => []
  | .values _ _ tuples _ _ => tuples.map fun t => t.map (SqlText.map (paramAt 0 r.params))

/-- What a tuple assigns to a column; `none` is the column's default. -/
def assignedTo (columns : List String) (tuple : List (SqlText (Option Param))) (column : String) :
    Option (SqlText (Option Param)) :=
  Record.lookup column (columns.zip tuple)

/-- A tuple stores a row: each value under its key's column, and nothing
else. -/
structure StoresRow (nowColumns : List String) (dialect : Dialect) (columns : List String)
    (row : Record Param) (tuple : List (SqlText (Option Param))) : Prop where
  stored : ∀ k v, row.get? k = some v →
    assignedTo columns tuple (camelToSnake k none) = some (storedCell nowColumns dialect k v)
  defaults : ∀ c, (∀ k ∈ row.keys, camelToSnake k none ≠ c) → assignedTo columns tuple c = none

/-- The database takes the statement, and its tuples store the rows in
order. -/
structure StoresRows (nowColumns : List String) (dialect : Dialect) (rows : List (Record Param))
    (r : InsertResult) : Prop where
  named : insertColumns r.sql ≠ []
  once : (insertColumns r.sql).Nodup
  each : List.Forall₂ (StoresRow nowColumns dialect (insertColumns r.sql)) rows (boundTuples r)

/-! ### When it does -/

/-- A row names exactly the columns of the first row, and what it has
under the first row's spelling of a column is its value there. -/
structure SameColumns (nowColumns : List String) (dialect : Dialect) (first row : Record Param) :
    Prop where
  shared : ∀ k v, row.get? k = some v → ∃ k' ∈ first.keys,
    camelToSnake k' none = camelToSnake k none ∧
      storedCell nowColumns dialect k' (rowValue row k') = storedCell nowColumns dialect k v
  complete : ∀ k' ∈ first.keys, ∃ k ∈ row.keys, camelToSnake k none = camelToSnake k' none

/-- The first row names columns, each once, and every row names the
same. -/
structure UniformRows (nowColumns : List String) (dialect : Dialect) (first : Record Param)
    (rows : List (Record Param)) : Prop where
  named : first.keys ≠ []
  once : (first.keys.map fun k => camelToSnake k none).Nodup
  same : ∀ row ∈ first :: rows, SameColumns nowColumns dialect first row

/-! ### Tuples with their parameters in place -/

variable (nowColumns : List String) (d : Dialect)

theorem buildCell_bound (key : String) (value : Param) (acc post : List Param) :
    SqlText.map (paramAt 0 ((buildCell nowColumns d key value acc).2 ++ post))
        (buildCell nowColumns d key value acc).1 = storedCell nowColumns d key value ∧
      ∃ vs, (buildCell nowColumns d key value acc).2 = acc ++ vs := by
  unfold buildCell storedCell
  split
  · exact ⟨rfl, [], (append_nil acc).symm⟩
  · refine ⟨?_, [value], rfl⟩
    have hat := paramAt_append 0 acc [value] post 0 Nat.one_pos
    rw [Nat.zero_add, Nat.add_zero] at hat
    show [Piece.hole (paramAt 0 (acc ++ [value] ++ post) (acc ++ [value]).length)] = _
    rw [length_append]
    exact congrArg (fun p => [Piece.hole p]) hat

theorem buildTuple_bound (row : Record Param) (keys : List String) (acc post : List Param) :
    (buildTuple nowColumns d row keys acc).1.map
          (SqlText.map (paramAt 0 ((buildTuple nowColumns d row keys acc).2 ++ post)))
        = keys.map (fun k => storedCell nowColumns d k (rowValue row k)) ∧
      ∃ vs, (buildTuple nowColumns d row keys acc).2 = acc ++ vs := by
  induction keys generalizing acc with
  | nil => exact ⟨rfl, [], (append_nil acc).symm⟩
  | cons key keys ih =>
    obtain ⟨-, vs, hvs⟩ := buildCell_bound nowColumns d key (rowValue row key) acc post
    generalize hcell : buildCell nowColumns d key (rowValue row key) acc = cell at hvs
    obtain ⟨htail, ws, hws⟩ := ih cell.2
    have hstep : buildTuple nowColumns d row (key :: keys) acc
        = (cell.1 :: (buildTuple nowColumns d row keys cell.2).1,
          (buildTuple nowColumns d row keys cell.2).2) := by
      rw [buildTuple, hcell]
    rw [hstep]
    constructor
    · obtain ⟨hhead, -⟩ :=
        buildCell_bound nowColumns d key (rowValue row key) acc (ws ++ post)
      rw [hcell, ← append_assoc, ← hws] at hhead
      rw [map_cons, map_cons, hhead, htail]
    · exact ⟨vs ++ ws, by rw [hws, hvs, append_assoc]⟩

theorem buildTuples_bound (keys : List String) (rows : List (Record Param))
    (acc post : List Param) :
    (buildTuples nowColumns d keys rows acc).1.map
          (fun t => t.map (SqlText.map (paramAt 0
            ((buildTuples nowColumns d keys rows acc).2 ++ post))))
        = rows.map (fun row => keys.map fun k => storedCell nowColumns d k (rowValue row k)) ∧
      ∃ vs, (buildTuples nowColumns d keys rows acc).2 = acc ++ vs := by
  induction rows generalizing acc with
  | nil => exact ⟨rfl, [], (append_nil acc).symm⟩
  | cons row rows ih =>
    obtain ⟨-, vs, hvs⟩ := buildTuple_bound nowColumns d row keys acc post
    generalize htuple : buildTuple nowColumns d row keys acc = tuple at hvs
    obtain ⟨htail, ws, hws⟩ := ih tuple.2
    have hstep : buildTuples nowColumns d keys (row :: rows) acc
        = (tuple.1 :: (buildTuples nowColumns d keys rows tuple.2).1,
          (buildTuples nowColumns d keys rows tuple.2).2) := by
      rw [buildTuples, htuple]
    rw [hstep]
    constructor
    · obtain ⟨hhead, -⟩ := buildTuple_bound nowColumns d row keys acc (ws ++ post)
      rw [htuple, ← append_assoc, ← hws] at hhead
      rw [map_cons, map_cons, hhead, htail]
    · exact ⟨vs ++ ws, by rw [hws, hvs, append_assoc]⟩

theorem buildConflictSets_params (updateVals : Record SetValue) (cs : List String)
    (acc : List Param) : ∃ vs, (buildConflictSets updateVals d cs acc).2 = acc ++ vs := by
  induction cs generalizing acc with
  | nil => exact ⟨[], (append_nil acc).symm⟩
  | cons c cs ih =>
    obtain ⟨vs, hvs⟩ := ih (acc ++ (buildSet [] d c
      ((updateVals.get? c).getD (.param (.value .undefined))) acc.length).2)
    exact ⟨_, hvs.trans (append_assoc _ _ _)⟩

theorem buildOnConflict_params (onConflict : OnConflictOptions) (acc : List Param) :
    ∃ vs, (buildOnConflict onConflict d acc).2 = acc ++ vs := by
  unfold buildOnConflict
  dsimp only
  split
  · exact ⟨[], (append_nil acc).symm⟩
  · exact ⟨[], (append_nil acc).symm⟩
  · split
    · exact buildConflictSets_params d _ _ acc
    · exact ⟨[], (append_nil acc).symm⟩

variable {first : Record Param}

theorem buildInsert_columns (options : InsertOptions) {rest : List (Record Param)}
    (hdata : options.data = first :: rest) :
    insertColumns (buildInsert options d).sql = first.keys.map fun k => camelToSnake k none := by
  unfold buildInsert
  rw [hdata]
  rfl

theorem buildInsert_tuples (options : InsertOptions) {rest : List (Record Param)}
    (hdata : options.data = first :: rest) :
    boundTuples (buildInsert options d) = (first :: rest).map fun row =>
      first.keys.map fun k => storedCell options.nowColumns d k (rowValue row k) := by
  generalize htuples : buildTuples options.nowColumns d first.keys (first :: rest) [] = tuples
  have hmore : ∃ vs, (buildInsert options d).params = tuples.2 ++ vs := by
    unfold buildInsert
    rw [hdata]
    subst htuples
    cases options.onConflict with
    | none => exact ⟨[], (append_nil _).symm⟩
    | some onConflict => exact buildOnConflict_params d onConflict _
  obtain ⟨vs, hvs⟩ := hmore
  obtain ⟨hbound, -⟩ :=
    buildTuples_bound options.nowColumns d first.keys (first :: rest) [] vs
  rw [htuples, ← hvs] at hbound
  have hsql : ∃ columns conflict returning, (buildInsert options d).sql =
      .values options.table columns tuples.1 conflict returning := by
    unfold buildInsert
    rw [hdata]
    subst htuples
    exact ⟨_, _, _, rfl⟩
  obtain ⟨_, _, _, hsql⟩ := hsql
  rw [← hbound, boundTuples, hsql]

/-! ### Rows and tuples -/

/-- A tuple of the first row's columns stores the rows that name the same
columns. -/
theorem storesRow_iff (hnodup : (first.keys.map fun k => camelToSnake k none).Nodup)
    (row : Record Param) :
    StoresRow nowColumns d (first.keys.map fun k => camelToSnake k none) row
        (first.keys.map fun k => storedCell nowColumns d k (rowValue row k)) ↔
      SameColumns nowColumns d first row := by
  have hzip : (first.keys.map fun k => camelToSnake k none).zip
        (first.keys.map fun k => storedCell nowColumns d k (rowValue row k))
      = first.keys.map fun k => (camelToSnake k none, storedCell nowColumns d k (rowValue row k)) :=
    zip_map'
  have hfst : (first.keys.map fun k => (camelToSnake k none,
        storedCell nowColumns d k (rowValue row k))).map Prod.fst
      = first.keys.map fun k => camelToSnake k none := map_map
  have hassigned : ∀ c cell, assignedTo (first.keys.map fun k => camelToSnake k none)
        (first.keys.map fun k => storedCell nowColumns d k (rowValue row k)) c = some cell ↔
      ∃ k' ∈ first.keys, camelToSnake k' none = c ∧
        storedCell nowColumns d k' (rowValue row k') = cell := by
    intro c cell
    unfold assignedTo
    rw [hzip, ← Record.mem_iff_lookup (by rw [hfst]; exact hnodup), mem_map]
    simp only [Prod.mk.injEq]
  have hdefault : ∀ c, assignedTo (first.keys.map fun k => camelToSnake k none)
        (first.keys.map fun k => storedCell nowColumns d k (rowValue row k)) c = none ↔
      ∀ k' ∈ first.keys, camelToSnake k' none ≠ c := by
    intro c
    unfold assignedTo
    rw [hzip, ← Option.not_isSome_iff_eq_none, Record.lookup_isSome_iff, hfst, mem_map]
    simp only [not_exists, not_and]
  constructor
  · intro h
    refine ⟨fun k v hk => (hassigned _ _).mp (h.stored k v hk), fun k' hk' => ?_⟩
    by_contra hnone
    have hout : ∀ k ∈ row.keys, camelToSnake k none ≠ camelToSnake k' none :=
      fun k hk heq => hnone ⟨k, hk, heq⟩
    exact (hdefault _).mp (h.defaults _ hout) k' hk' rfl
  · intro h
    refine ⟨fun k v hk => (hassigned _ _).mpr (h.shared k v hk), fun c hc => ?_⟩
    rw [hdefault]
    intro k' hk' heq
    obtain ⟨k, hk, hkk'⟩ := h.complete k' hk'
    exact hc k hk (hkk'.trans heq)

theorem buildInsert_stores_iff (options : InsertOptions) {rest : List (Record Param)}
    (hdata : options.data = first :: rest) :
    StoresRows options.nowColumns d options.data (buildInsert options d) ↔
      UniformRows options.nowColumns d first rest := by
  have hcolumns := buildInsert_columns d options hdata
  have htuples := buildInsert_tuples d options hdata
  have heach : (first.keys.map fun k => camelToSnake k none).Nodup →
      (List.Forall₂ (StoresRow options.nowColumns d (insertColumns (buildInsert options d).sql))
          options.data (boundTuples (buildInsert options d)) ↔
        ∀ row ∈ first :: rest, SameColumns options.nowColumns d first row) := by
    intro hnodup
    rw [hcolumns, htuples, hdata, forall₂_map_right_iff, forall₂_same]
    exact forall₂_congr fun row _ => storesRow_iff options.nowColumns d hnodup row
  constructor
  · intro h
    have hnodup := h.once
    rw [hcolumns] at hnodup
    refine ⟨fun hnil => h.named ?_, hnodup, (heach hnodup).mp h.each⟩
    rw [hcolumns, hnil]
    rfl
  · intro h
    refine ⟨?_, ?_, (heach h.once).mpr h.same⟩
    · rw [hcolumns]
      exact fun hnil => h.named (map_eq_nil_iff.mp hnil)
    · rw [hcolumns]
      exact h.once

/-! ### The queries -/

/-- The rows `createMany` hands to its INSERT. -/
def createRows (generateId : String → Js) (table : TableDef) (data : List (Record Js)) :
    Except String (List (Record Param)) :=
  data.mapM fun row => (createData generateId table row d).map insertRow

theorem createMany_insert {generateId : String → Js} {table : TableDef} {data : List (Record Js)}
    {r : InsertResult} (h : createMany generateId table data d = .ok (some r)) :
    ∃ first rest, createRows d generateId table data = .ok (first :: rest) ∧
      r = buildInsert
        { table := table.name
          data := first :: rest
          returning := none
          onConflict := none
          nowColumns := getTimestampColumns table } d := by
  unfold createMany at h
  split at h
  case isTrue => cases h
  case isFalse hdata =>
      obtain ⟨rows, hrows, h⟩ := bind_eq_ok h
      cases h
      cases data with
      | nil => exact absurd rfl hdata
      | cons row more =>
        have hcons := hrows
        rw [mapM_cons] at hcons
        obtain ⟨first, -, hmore⟩ := bind_eq_ok hcons
        obtain ⟨rest, -, hrest⟩ := bind_eq_ok hmore
        cases hrest
        exact ⟨first, rest, hrows, rfl⟩

/-- The statement of a batch stores every row exactly when the rows are
uniform, for `buildInsert` and for the rows `createMany` prepares. -/
theorem batchInsert_stores_iff (options : InsertOptions) (first : Record Param)
    (rest : List (Record Param)) (hdata : options.data = first :: rest) :
    (StoresRows options.nowColumns d options.data (buildInsert options d) ↔
        UniformRows options.nowColumns d first rest) ∧
      ∀ (generateId : String → Js) (table : TableDef) (data : List (Record Js)) (r : InsertResult),
        createMany generateId table data d = .ok (some r) →
          ∃ first rest, createRows d generateId table data = .ok (first :: rest) ∧
            (StoresRows (getTimestampColumns table) d (first :: rest) r ↔
              UniformRows (getTimestampColumns table) d first rest) := by
  refine ⟨buildInsert_stores_iff d options hdata, ?_⟩
  intro generateId table data r h
  obtain ⟨first, rest, hrows, rfl⟩ := createMany_insert d h
  exact ⟨first, rest, hrows, buildInsert_stores_iff d
    { table := table.name
      data := first :: rest
      returning := none
      onConflict := none
      nowColumns := getTimestampColumns table } rfl⟩

/-! ### Notes -/

def note (entries : List (String × Js)) : Record Param :=
  .ofList (entries.map fun e => (e.1, .value e.2))

def insertNotes (rows : List (Record Param)) : InsertOptions where
  table := "notes"
  data := rows
  returning := none
  onConflict := none
  nowColumns := []

/-- The second row's body is not stored: the first row has none. -/
theorem body_not_stored :
    ¬ StoresRows [] postgresDialect
      [note [("title", .str "a")], note [("title", .str "b"), ("body", .str "c")]]
      (buildInsert (insertNotes
        [note [("title", .str "a")], note [("title", .str "b"), ("body", .str "c")]])
        postgresDialect) := by
  intro h
  have huniform := (buildInsert_stores_iff postgresDialect (insertNotes _) rfl).mp h
  have hsame := huniform.same (note [("title", .str "b"), ("body", .str "c")])
    (mem_cons_of_mem _ mem_cons_self)
  obtain ⟨k', hk', hcolumn, -⟩ := hsame.shared "body" (.value (.str "c")) rfl
  have htitle : k' = "title" := mem_singleton.mp hk'
  rw [htitle] at hcolumn
  revert hcolumn
  decide

theorem sameColumns_titles (v w : Js) :
    SameColumns [] postgresDialect (note [("title", v)]) (note [("title", w)]) := by
  refine ⟨fun k u hk => ?_, fun k' hk' => ⟨k', hk', rfl⟩⟩
  have hmem : (k, u) ∈ [("title", Param.value w)] := Record.mem_of_lookup hk
  obtain ⟨rfl, rfl⟩ := Prod.mk.inj (mem_singleton.mp hmem)
  exact ⟨"title", mem_singleton_self _, rfl, rfl⟩

/-- Rows of one shape are stored. -/
theorem notes_stored :
    StoresRows [] postgresDialect [note [("title", .str "a")], note [("title", .str "b")]]
      (buildInsert (insertNotes [note [("title", .str "a")], note [("title", .str "b")]])
        postgresDialect) := by
  refine (batchInsert_stores_iff postgresDialect (insertNotes _) _ _ rfl).1.mpr ⟨?_, ?_, ?_⟩
  · decide
  · decide
  · intro row hrow
    rw [mem_cons, mem_singleton] at hrow
    rcases hrow with rfl | rfl
    · exact sameColumns_titles _ _
    · exact sameColumns_titles _ _

end Vertz.Proofs
