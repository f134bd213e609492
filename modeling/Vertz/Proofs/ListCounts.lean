import Vertz.Proofs.Statements

/-!
# `Vertz.Proofs.ListCounts`: the total of `listAndCount`

The total is read from a window column of the page's first row. A window
function sees the rows the WHERE admits, so the total leaves out what
the cursor excludes, and a page without rows has no row to read it from.
-/

namespace Vertz.Proofs

open Vertz.Lib
open Vertz.Db
open Vertz.Db.Sql
open Vertz.Db.Query
open Vertz.Spec List

variable {b : Backend} {table : TableDef} {store : Store}

/-- The rows of the table the filter of a listing matches. -/
def matchingRows (b : Backend) (table : TableDef) (options : ListArgs) (store : Store) :
    List SqlRow :=
  (store table.name).filter (filterMatches b.engine none options.where_)

/-- Whether a row is behind the cursor of a SELECT. -/
def behindCursor (options : SelectOptions) (row : SqlRow) : Bool :=
  (cursorOfOptions options).all fun cur => cursorValue row cur == .yes

/-- No row matches, or every matching row is behind the cursor and the
page has room for one of them. -/
def CountsAll (b : Backend) (table : TableDef) (options : ListArgs) (store : Store) : Prop :=
  matchingRows b table options store = [] ∨
    ((∀ row ∈ matchingRows b table options store,
        behindCursor (listOptions table options true) row = true) ∧
      (∀ n, options.offset = some n → n < (matchingRows b table options store).length) ∧
      (options.take.orElse fun _ => options.limit) ≠ some 0)

/-! ### The rows of a page -/

/-- A page is empty when OFFSET passes all admitted rows, or LIMIT is 0. -/
theorem fetch_eq_nil_iff {engine : Engine} {s : SelectSql (Option Param)}
    {rows page : List SqlRow} {limit offset : Option ℚ}
    (hlimit : s.limit = limit.map fun q => some (.value (.num q)))
    (hoffset : s.offset = offset.map fun q => some (.value (.num q)))
    (h : fetch engine s rows = some page) :
    ∃ c, readWheres s.wheres = some c ∧
      (page = [] ↔
        ((rows.filter (admitted engine c)).length : ℚ) ≤ offset.getD 0 ∨ limit = some 0) := by
  unfold fetch at h
  rw [hlimit, hoffset] at h
  obtain ⟨c, hc, h⟩ := Option.bind_eq_some_iff.mp h
  obtain ⟨behind, hbehind, h⟩ := Option.bind_eq_some_iff.mp h
  generalize hsort : (rows.filter (admitted engine c)).mergeSort
    (orderLe engine.dialect s.orderBy) = inOrder at hbehind
  have hlen : inOrder.length = (rows.filter (admitted engine c)).length := by
    rw [← hsort, length_mergeSort]
  refine ⟨c, hc, ?_⟩
  rw [← hlen]
  -- OFFSET
  have hnil : behind = [] ↔ (inOrder.length : ℚ) ≤ offset.getD 0 := by
    cases offset with
    | none =>
      cases hbehind
      show behind = [] ↔ (behind.length : ℚ) ≤ 0
      rw [← length_eq_zero_iff]
      norm_cast
      omega
    | some q =>
      obtain ⟨n, hn, rfl⟩ := Option.map_eq_some_iff.mp hbehind
      show inOrder.drop n = [] ↔ (inOrder.length : ℚ) ≤ q
      rw [rowCount_num hn, drop_eq_nil_iff]
      norm_cast
  -- LIMIT
  have hpage : page = [] ↔ behind = [] ∨ limit = some 0 := by
    cases limit with
    | none =>
      cases h
      simp
    | some q =>
      obtain ⟨n, hn, rfl⟩ := Option.map_eq_some_iff.mp h
      rw [rowCount_num hn, take_eq_nil_iff, Option.some_inj]
      norm_cast
      exact or_comm
  exact hpage.trans (or_congr_left hnil)

/-- The WHERE of a listing the database reads admits the matching rows
behind the cursor. -/
theorem admitted_listing {engine : Engine} {options : SelectOptions}
    {c : Cond (Atom (Option Param) ⊕ Cursor)} (hcasing : options.casingOverrides = none)
    (h : readWheres (selectMap (some : Param → Option Param) (selectMeant options)).wheres
      = some c) (row : SqlRow) :
    admitted engine c row
      = (filterMatches engine none options.where_ row && behindCursor options row) := by
  rw [selectMeant_wheres, hcasing] at h
  have hwf : ∀ f, options.where_ = some f → wellFormed f = true := by
    intro f hf
    cases hw : wellFormed f with
    | true => rfl
    | false =>
      rw [hf, readWheres_malformed hw] at h
      cases h
  obtain ⟨c', hc', hadm⟩ := @readWheres_page engine none options.where_ hwf
    (cursorOfOptions options)
  rw [hc'] at h
  cases h
  exact hadm row

/-! ### The total -/

/-- How many rows the window function counts. -/
def countedRows (b : Backend) (table : TableDef) (options : ListArgs) (store : Store) : ℕ :=
  ((matchingRows b table options store).filter
    (behindCursor (listOptions table options true))).length

theorem listAndCount_total {options : ListArgs} {data : List (Record Js)} {total : ℕ}
    (h : listAndCount b table options store = .ok (data, total)) :
    total =
      if (countedRows b table options store : ℚ) ≤ options.offset.getD 0 ∨
          (options.take.orElse fun _ => options.limit) = some 0 then 0
      else countedRows b table options store := by
  unfold listAndCount at h
  obtain ⟨page, hpage, h⟩ := map_eq_ok h
  obtain ⟨r, hr, hrun⟩ := bind_eq_ok hpage
  dsimp only at hrun
  rw [boundSelect_eq hr] at hrun
  split_ifs at hrun with hknown
  split at hrun
  case h_2 => cases hrun
  rename_i rows hfetch
  cases hrun
  obtain ⟨c, hc, hnil⟩ := @fetch_eq_nil_iff _ _ _ _
    (options.take.orElse fun _ => options.limit) options.offset
    (Option.map_map _ _ _) (Option.map_map _ _ _) hfetch
  have hcounted : ((store table.name).filter (admitted b.engine c)).length
      = countedRows b table options store := by
    unfold countedRows matchingRows
    rw [filter_filter]
    congr 1
    apply filter_congr
    intro row _
    rw [admitted_listing rfl hc, Bool.and_comm]
    rfl
  have hwindow : windowCount b table (listOptions table options true) store
      = some (countedRows b table options store) := by
    unfold windowCount
    rw [hr]
    dsimp only
    rw [boundSelect_eq hr, hc, ← hcounted]
    rfl
  rw [hcounted] at hnil
  cases page with
  | nil =>
    rw [if_pos (hnil.mp rfl)]
    cases h
    rfl
  | cons row rows =>
    rw [if_neg fun hempty => cons_ne_nil row rows (hnil.mpr hempty)]
    cases h
    rw [hwindow]
    rfl

/-- The window function counts every matching row when all are behind the
cursor. -/
theorem countedRows_eq_iff (options : ListArgs) :
    countedRows b table options store = (matchingRows b table options store).length ↔
      ∀ row ∈ matchingRows b table options store,
        behindCursor (listOptions table options true) row = true :=
  length_filter_eq_length_iff

/-- The total is the number of matching rows exactly when no row matches,
or all of them are behind the cursor and the page is not empty. -/
theorem listAndCount_total_iff {options : ListArgs} {data : List (Record Js)} {total : ℕ}
    (h : listAndCount b table options store = .ok (data, total)) :
    total = (matchingRows b table options store).length ↔
      CountsAll b table options store := by
  have hle : countedRows b table options store ≤ (matchingRows b table options store).length :=
    length_filter_le _ _
  rw [listAndCount_total h]
  unfold CountsAll
  rw [← countedRows_eq_iff, ← length_eq_zero_iff]
  split_ifs with hempty
  · -- an empty page
    constructor
    · exact fun hzero => .inl hzero.symm
    · rintro (hzero | ⟨hall, hoffset, hlimit⟩)
      · exact hzero.symm
      · rcases hempty with hcut | hcut
        · cases hoff : options.offset with
          | none =>
            rw [hoff, hall] at hcut
            have hzero : (((matchingRows b table options store).length : ℕ) : ℚ) ≤ 0 := hcut
            norm_cast at hzero
            omega
          | some n =>
            rw [hoff, hall] at hcut
            exact absurd hcut (not_le.mpr (hoffset n hoff))
        · exact absurd hcut hlimit
  · -- a page with a first row
    rw [not_or, not_le] at hempty
    constructor
    · intro hall
      refine .inr ⟨hall, fun n hn => ?_, hempty.2⟩
      rw [hn, hall] at hempty
      exact hempty.1
    · rintro (hzero | ⟨hall, -, -⟩)
      · omega
      · exact hall

/-! ### A listing of two posts -/

def postsTable : TableDef where
  name := "posts"
  columns := .ofList [("id", .plain "integer")]

def postsBackend : Backend where
  engine := scalarEngine
  dialect := postgresDialect
  parseCursor _ := none

def twoPosts : Store := fun _ => [fun _ => .num 1, fun _ => .num 2]

/-- The posts behind the first one. -/
def behindFirst : ListArgs := { cursor := some (.ofList [("id", .num 1)]) }

/-- The page behind the last post. -/
def pastTheEnd : ListArgs := { limit := some 2, offset := some 2 }

theorem listAndCount_isOk {options : ListArgs}
    (h : (listAndCount b table options store).isOk = true) :
    ∃ data total, listAndCount b table options store = .ok (data, total) := by
  cases hlist : listAndCount b table options store with
  | error message =>
    rw [hlist] at h
    cases h
  | ok result => exact ⟨result.1, result.2, rfl⟩

/-- Both listings are of two matching posts, and both totals differ. -/
theorem total_misses_posts :
    (∃ data total, listAndCount postsBackend postsTable behindFirst twoPosts = .ok (data, total) ∧
      total = 1 ∧ (matchingRows postsBackend postsTable behindFirst twoPosts).length = 2) ∧
      ∃ data total, listAndCount postsBackend postsTable pastTheEnd twoPosts = .ok (data, total) ∧
        total = 0 ∧ (matchingRows postsBackend postsTable pastTheEnd twoPosts).length = 2 := by
  constructor
  · obtain ⟨data, total, h⟩ : ∃ data total,
        listAndCount postsBackend postsTable behindFirst twoPosts = .ok (data, total) :=
      listAndCount_isOk rfl
    refine ⟨data, total, h, ?_, rfl⟩
    have hcounted : countedRows postsBackend postsTable behindFirst twoPosts = 1 := by decide
    rw [listAndCount_total h, hcounted, if_neg]
    rintro (hcut | hcut)
    · exact absurd hcut (by decide : ¬ ((1 : ℕ) : ℚ) ≤ 0)
    · cases hcut
  · obtain ⟨data, total, h⟩ : ∃ data total,
        listAndCount postsBackend postsTable pastTheEnd twoPosts = .ok (data, total) :=
      listAndCount_isOk rfl
    refine ⟨data, total, h, ?_, rfl⟩
    have hcounted : countedRows postsBackend postsTable pastTheEnd twoPosts = 2 := by decide
    rw [listAndCount_total h, hcounted, if_pos]
    left
    simp [pastTheEnd]

/-- The first page of both posts. -/
theorem total_of_firstPage :
    ∃ data total, listAndCount postsBackend postsTable { limit := some 1 } twoPosts
        = .ok (data, total) ∧
      total = (matchingRows postsBackend postsTable { limit := some 1 } twoPosts).length := by
  obtain ⟨data, total, h⟩ : ∃ data total,
      listAndCount postsBackend postsTable { limit := some 1 } twoPosts = .ok (data, total) :=
    listAndCount_isOk rfl
  refine ⟨data, total, h, (listAndCount_total_iff h).mpr (.inr ⟨?_, ?_, ?_⟩)⟩
  · intro row _
    rfl
  · intro n hn
    cases hn
  · intro hlimit
    cases hlimit

end Vertz.Proofs
