import Vertz.Proofs.Selects

/-!
# `Vertz.Proofs.Statements`: the rows a statement acts on

From the text the database reads back to `selects`: whatever a SELECT
returns, an UPDATE writes or a DELETE removes is a row of the table its
where object selects.
-/

namespace Vertz.Proofs

open Vertz.Lib
open Vertz.Lib.Condition
open Vertz.Db
open Vertz.Db.Sql
open Vertz.Spec List

/-! ### Conditions that are not well formed -/

theorem whereCondition_stuck {ov : Option CasingOverrides} {f : WhereFilter}
    (h : wellFormed f = false) : Stuck (whereCondition ov (some f)) := by
  have hout : ReadingOutcome (filterConditions ov f) (wellFormed f) := filterConditions_outcome f
  rw [whereCondition_some]
  exact stuck_joinAnd hout.settled (hout.stuck h)

theorem Stuck.ne_nil {α : Type} {ts : List (Tok α)} (h : Stuck ts) : ts ≠ [] := by
  intro hnil
  have hrun := h [] Frame.start
  rw [hnil] at hrun
  cases hrun

theorem readWheres_malformed {ov : Option CasingOverrides} {f : WhereFilter}
    (h : wellFormed f = false) (cursor : Option Cursor) :
    readWheres (pageWheres ov (some f) cursor) = none := by
  have hstuck : Stuck (whereCondition ov (some f)) := whereCondition_stuck h
  have hempty : ¬ (whereCondition ov (some f)).isEmpty = true := fun he =>
    Stuck.ne_nil hstuck (isEmpty_iff.mp he)
  have htoks : ((whereCondition ov (some f)).map (Tok.map (atomMap some))).map
        (Tok.map (Sum.inl : _ → Atom (Option Param) ⊕ Cursor))
      = (whereCondition ov (some f)).map
        (Tok.map fun a => (Sum.inl (atomMap some a) : Atom (Option Param) ⊕ Cursor)) := by
    rw [map_map]
    refine map_congr_left fun t _ => ?_
    cases t <;> rfl
  unfold pageWheres
  rw [if_neg hempty]
  cases cursor with
  | none =>
    show parse (((whereCondition ov (some f)).map (Tok.map (atomMap some))).map
      (Tok.map Sum.inl)) = none
    rw [htoks]
    have hnone := hstuck.parse_map_append
      (fun a => (Sum.inl (atomMap some a) : Atom (Option Param) ⊕ Cursor)) []
    rwa [append_nil] at hnone
  | some cur =>
    show parse (((whereCondition ov (some f)).map (Tok.map (atomMap some))).map
      (Tok.map Sum.inl) ++ [.and, .atom (.inr cur)]) = none
    rw [htoks]
    exact hstuck.parse_map_append _ _

/-! ### SELECT -/

/-- The cursor of a statement. -/
def cursorOfOptions (options : SelectOptions) : Option Cursor :=
  match (options.cursor.map Record.entries).getD [] with
  | [] => none
  | e :: es =>
    some ⟨(e :: es).map fun e => camelToSnake e.1 options.casingOverrides,
      orderDir options.orderBy e.1 != .desc, ((e :: es).map fun e => .value e.2).map some⟩

theorem selectMeant_wheres (options : SelectOptions) :
    (selectMap (some : Param → Option Param) (selectMeant options)).wheres
      = pageWheres options.casingOverrides options.where_ (cursorOfOptions options) := by
  unfold selectMap selectMeant pageWheres cursorOfOptions
  dsimp only
  rw [List.map_append]
  congr 1
  · split <;> rfl
  · cases (options.cursor.map Record.entries).getD [] with
    | nil => rfl
    | cons e es => rfl

/-- A fetched row is a row of the table that passes the WHERE. -/
theorem fetch_mem {engine : Engine} {s : SelectSql (Option Param)} {table rows : List SqlRow}
    (h : fetch engine s table = some rows) :
    ∃ c, readWheres s.wheres = some c ∧ ∀ row ∈ rows, row ∈ table ∧ admitted engine c row = true := by
  unfold fetch at h
  obtain ⟨c, hc, h⟩ := Option.bind_eq_some_iff.mp h
  refine ⟨c, hc, fun row hrow => ?_⟩
  dsimp only at h
  obtain ⟨page, hpage, h⟩ := Option.bind_eq_some_iff.mp h
  have hrows : row ∈ page := by
    cases hlim : s.limit with
    | none =>
      rw [hlim] at h
      cases h
      exact hrow
    | some p =>
      rw [hlim] at h
      obtain ⟨n, -, rfl⟩ := Option.map_eq_some_iff.mp h
      exact mem_of_mem_take hrow
  have hsorted : row ∈ (table.filter (admitted engine c)).mergeSort
      (orderLe engine.dialect s.orderBy) := by
    cases hoff : s.offset with
    | none =>
      rw [hoff] at hpage
      cases hpage
      exact hrows
    | some p =>
      rw [hoff] at hpage
      obtain ⟨n, -, rfl⟩ := Option.map_eq_some_iff.mp hpage
      exact mem_of_mem_drop hrows
  rw [mem_mergeSort, mem_filter] at hsorted
  exact hsorted

section

variable {b : Backend} {table : TableDef} {store : Store}

/-- What a SELECT the database runs says about its filter: the builder
takes it, its columns exist and its text can be read. -/
structure Accepted (b : Backend) (table : TableDef) (f : WhereFilter) : Prop where
  entries : ∀ e ∈ allEntries f, entryAccepted b.dialect e
  columns : ∀ e ∈ allEntries f, entryKnown (sqlColumns table) e
  readable : wellFormed f = true

theorem runSelect_accepted {options : SelectOptions} {f : WhereFilter} {rows : List SqlRow}
    (hwhere : options.where_ = some f) (hcasing : options.casingOverrides = none)
    (h : runSelect b table options store = .ok rows) :
    Accepted b table f ∧ knownSelect (sqlColumns table)
        (selectMap (some : Param → Option Param) (selectMeant options)) = true ∧
      fetch b.engine (selectMap some (selectMeant options)) (store table.name) = some rows := by
  unfold runSelect at h
  obtain ⟨r, hr, h⟩ := bind_eq_ok h
  dsimp only at h
  rw [boundSelect_eq hr] at h
  split_ifs at h with hknown
  rw [Bool.not_eq_true, Bool.not_eq_false'] at hknown
  cases hfetch : fetch b.engine (selectMap some (selectMeant options)) (store table.name) with
  | none =>
    rw [hfetch] at h
    cases h
  | some rows' =>
    rw [hfetch] at h
    cases h
    obtain ⟨c, hc, -⟩ := fetch_mem hfetch
    rw [selectMeant_wheres, hcasing, hwhere] at hc
    -- the database could read the filter
    have hwf : wellFormed f = true := by
      cases hf : wellFormed f with
      | true => rfl
      | false =>
        rw [readWheres_malformed hf] at hc
        cases hc
    -- the builder took it
    have haccepted : ∀ e ∈ allEntries f, entryAccepted b.dialect e := by
      rw [← buildWhere_ok_iff b.dialect f 0]
      obtain ⟨p, hp, -⟩ := bind_eq_ok hr
      rw [hwhere, hcasing] at hp
      obtain ⟨w, hw, -⟩ := bind_eq_ok hp
      exact ⟨w, hw⟩
    -- its columns exist
    have hcolumns : ∀ e ∈ allEntries f, entryKnown (sqlColumns table) e := by
      rw [← knownCondition_iff]
      have hparts := hknown
      unfold knownSelect at hparts
      rw [Bool.and_eq_true, Bool.and_eq_true] at hparts
      replace hparts := hparts.1.2
      rw [selectMeant_wheres, hcasing, hwhere] at hparts
      unfold pageWheres at hparts
      rw [all_append, Bool.and_eq_true] at hparts
      by_cases hempty : (whereCondition none (some f)).isEmpty = true
      · rw [isEmpty_iff.mp hempty]
        rfl
      · rw [if_neg hempty, all_cons, Bool.and_eq_true] at hparts
        exact hparts.1.1
    exact ⟨⟨haccepted, hcolumns, hwf⟩, hknown, rfl⟩

theorem runSelect_mem {options : SelectOptions} {f : WhereFilter} {rows : List SqlRow}
    (hwhere : options.where_ = some f) (hcasing : options.casingOverrides = none)
    (h : runSelect b table options store = .ok rows) :
    ∀ row ∈ rows, row ∈ store table.name ∧
      Selects b.engine b.dialect (sqlColumns table) row f := by
  obtain ⟨hacc, -, hfetch⟩ := runSelect_accepted hwhere hcasing h
  obtain ⟨c, hc, hmem⟩ := fetch_mem hfetch
  rw [selectMeant_wheres, hcasing, hwhere] at hc
  obtain ⟨c', hc', hadm⟩ := @readWheres_page b.engine none (some f)
    (fun g hg => by cases hg; exact hacc.readable) (cursorOfOptions options)
  rw [hc'] at hc
  cases hc
  intro row hrow
  obtain ⟨htable, hpass⟩ := hmem row hrow
  rw [hadm, Bool.and_eq_true] at hpass
  exact ⟨htable, hacc.entries, hacc.columns, hacc.readable, beq_iff_eq.mp hpass.1⟩

/-- A count the database takes is a natural number. -/
theorem rowCount_num {q : ℚ} {n : ℕ} (h : rowCount (some (.value (.num q))) = some n) :
    q = (n : ℚ) := by
  unfold rowCount at h
  dsimp only at h
  split_ifs at h with hq
  cases h
  obtain ⟨hden, hnum⟩ := hq
  calc q = (q.num : ℚ) := (Rat.coe_int_num_of_den_eq_one hden).symm
    _ = ((q.num.toNat : ℤ) : ℚ) := by rw [Int.toNat_of_nonneg hnum]
    _ = (q.num.toNat : ℚ) := by norm_cast

theorem rowCount_natCast (n : ℕ) : rowCount (some (.value (.num (n : ℚ)))) = some n := by
  unfold rowCount
  dsimp only
  rw [if_pos ⟨Rat.den_natCast _, by rw [Rat.num_natCast]; exact Int.natCast_nonneg _⟩,
    Rat.num_natCast]
  rfl

theorem defaultColumns_known (table : TableDef) :
    ((getDefaultColumns table).map fun col => buildColumnRef col none).all
      (fun c => (sqlColumns table).contains c.column) = true := by
  rw [all_eq_true]
  intro c hc
  obtain ⟨col, hcol, rfl⟩ := mem_map.mp hc
  have hkey : col ∈ table.columns.keys := by
    obtain ⟨e, he, rfl⟩ := mem_map.mp hcol
    exact mem_map.mpr ⟨e, (mem_filter.mp he).1, rfl⟩
  have hname : (buildColumnRef col none).column = camelToSnake col none := by
    unfold buildColumnRef
    dsimp only
    split
    · rename_i h
      exact h.symm
    · rfl
  rw [hname, contains_iff_mem]
  exact mem_map.mpr ⟨col, hkey, rfl⟩

/-- A SELECT over known columns, with an accepted filter, returns the
matching rows its cursor admits, sorted, up to the limit. -/
theorem runSelect_page {options : SelectOptions} {f : WhereFilter} {limit : ℕ}
    (hwhere : options.where_ = some f) (hcasing : options.casingOverrides = none)
    (hcolumns : options.columns = some (getDefaultColumns table))
    (horder : (buildOrderBy none options.orderBy options.cursor).all
      (fun o => (sqlColumns table).contains o.1) = true)
    (hcursor : ∀ cur, cursorOfOptions options = some cur →
      cur.columns.all (sqlColumns table).contains = true)
    (hlimit : (options.take.orElse fun _ => options.limit) = some (limit : ℚ))
    (hoffset : options.offset = none) (hacc : Accepted b table f) :
    runSelect b table options store = .ok ((((store table.name).filter fun x =>
        filterMatches b.engine none (some f) x &&
          (cursorOfOptions options).all fun cur => cursorValue x cur == .yes).mergeSort
      (orderLe b.engine.dialect (buildOrderBy none options.orderBy options.cursor))).take
        limit) := by
  have hok : ∃ r, buildSelect options b.dialect = .ok r := by
    refine buildSelect_ok ?_
    rw [hwhere, hcasing]
    exact (buildWhere_ok_iff b.dialect f 0).mpr hacc.entries
  obtain ⟨r, hr⟩ := hok
  obtain ⟨c, hc, hadm⟩ := @readWheres_page b.engine none (some f)
    (fun g hg => by cases hg; exact hacc.readable) (cursorOfOptions options)
  have hsql : knownSelect (sqlColumns table)
      (selectMap (some : Param → Option Param) (selectMeant options)) = true := by
    unfold knownSelect
    rw [selectMeant_wheres, hcasing, hwhere, Bool.and_eq_true, Bool.and_eq_true]
    refine ⟨⟨?_, ?_⟩, ?_⟩
    · show ((options.columns.getD []).map fun col => buildColumnRef col options.casingOverrides).all
        (fun c => (sqlColumns table).contains c.column) = true
      rw [hcolumns, hcasing]
      exact defaultColumns_known table
    · unfold pageWheres
      rw [all_append, Bool.and_eq_true]
      constructor
      · split
        · rfl
        · show (knownCondition _ _ && true) = true
          rw [Bool.and_true, knownCondition_iff]
          exact hacc.columns
      · cases hcur : cursorOfOptions options with
        | none => rfl
        | some cur =>
          show (cur.columns.all (sqlColumns table).contains && true) = true
          rw [Bool.and_true]
          exact hcursor cur hcur
    · show (buildOrderBy options.casingOverrides options.orderBy options.cursor).all _ = true
      rw [hcasing]
      exact horder
  have hadmitted : (store table.name).filter (admitted b.engine c)
      = (store table.name).filter fun x => filterMatches b.engine none (some f) x &&
        (cursorOfOptions options).all fun cur => cursorValue x cur == .yes :=
    filter_congr fun x _ => hadm x
  have hfetch : fetch b.engine (selectMap some (selectMeant options)) (store table.name)
      = some ((((store table.name).filter (admitted b.engine c)).mergeSort
        (orderLe b.engine.dialect
          (selectMap (some : Param → Option Param) (selectMeant options)).orderBy)).take limit) := by
    have hoff : (selectMap (some : Param → Option Param) (selectMeant options)).offset = none := by
      show (options.offset.map _).map _ = none
      rw [hoffset]
      rfl
    have hlim : (selectMap (some : Param → Option Param) (selectMeant options)).limit
        = some (some (.value (.num (limit : ℚ)))) := by
      show ((options.take.orElse fun _ => options.limit).map _).map _ = _
      rw [hlimit]
      rfl
    unfold fetch
    rw [selectMeant_wheres, hcasing, hwhere, hc, Option.bind_some, hoff, hlim]
    dsimp only
    rw [Option.bind_some, rowCount_natCast]
    rfl
  have hsorted : (selectMap (some : Param → Option Param) (selectMeant options)).orderBy
      = buildOrderBy none options.orderBy options.cursor := by
    show buildOrderBy options.casingOverrides options.orderBy options.cursor = _
    rw [hcasing]
  unfold runSelect
  rw [hr, Except.bind]
  dsimp only
  rw [boundSelect_eq hr, hsql, hfetch, hadmitted, hsorted]
  rfl

/-- A SELECT without order and cursor returns every selected row when its
limit has room for the whole table. -/
theorem runSelect_returns {options : SelectOptions} {f : WhereFilter} {limit : ℕ} {row : SqlRow}
    (hwhere : options.where_ = some f) (hcasing : options.casingOverrides = none)
    (hcolumns : options.columns = some (getDefaultColumns table))
    (horder : options.orderBy = none) (hcursor : options.cursor = none)
    (hlimit : (options.take.orElse fun _ => options.limit) = some (limit : ℚ))
    (hoffset : options.offset = none) (hroom : (store table.name).length ≤ limit)
    (hrow : row ∈ store table.name)
    (hselects : Selects b.engine b.dialect (sqlColumns table) row f) :
    ∃ rows, runSelect b table options store = .ok rows ∧ row ∈ rows := by
  have hcur : cursorOfOptions options = none := by
    unfold cursorOfOptions
    rw [hcursor]
    rfl
  have hnoOrder : buildOrderBy none options.orderBy options.cursor = [] := by
    rw [horder, hcursor]
    rfl
  have hrun := @runSelect_page b table store options f limit hwhere hcasing hcolumns
    (by rw [hnoOrder]; rfl) (fun cur h => by rw [hcur] at h; cases h) hlimit hoffset
    ⟨hselects.accepted, hselects.known, hselects.readable⟩
  refine ⟨_, hrun, ?_⟩
  rw [take_of_length_le, mem_mergeSort, mem_filter, hcur]
  · refine ⟨hrow, ?_⟩
    rw [Option.all_none, Bool.and_true]
    show (filterValue _ f == .yes) = true
    rw [hselects.value]
    rfl
  · rw [length_mergeSort]
    exact (length_filter_le _ _).trans hroom

/-! ### Writes -/

end

end Vertz.Proofs
