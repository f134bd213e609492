import Mathlib.Data.List.Pairwise
import Mathlib.Data.Nat.Cast.Order.Ring
import Vertz.Proofs.Pages

/-!
# `Vertz.Proofs.Pagination`: when following the pages is complete

The cursor is one row comparison in the direction of its first column,
the sort is per column. `pagination_complete_iff` says when they agree
on every table: exactly when the order reaches the key in one direction
over columns that are never `NULL`.
-/

namespace Vertz.Proofs

open Vertz.Lib
open Vertz.Lib.Keyset
open Vertz.Db
open Vertz.Db.Sql
open Vertz.Spec List

/-! ### The sort -/

variable (d : DialectName)

theorem sortKey_eq_iff {a b : Js} (ha : a.isNullish = false) (hb : b.isNullish = false) :
    sortKey d a = sortKey d b ↔ a = b := by
  cases d <;> simp [sortKey, ha, hb]

theorem sortKey_lt_iff {a b : Js} (ha : a.isNullish = false) (hb : b.isNullish = false) :
    sortKey d a < sortKey d b ↔ a < b := by
  cases d <;> simp [sortKey, ha, hb, Prod.Lex.toLex_lt_toLex]

theorem orderLe_cons (c : String) (dir : SortDir) (rest : List (String × SortDir)) (r s : SqlRow) :
    orderLe d ((c, dir) :: rest) r s = if sortKey d (r c) = sortKey d (s c) then orderLe d rest r s
        else sortsBefore dir (sortKey d (r c)) (sortKey d (s c)) := rfl

theorem sortsBefore_total (dir : SortDir) {a b : ℕ ×ₗ Js} (h : a ≠ b) :
    (sortsBefore dir a b || sortsBefore dir b a) = true := by
  rcases lt_or_gt_of_ne h with hlt | hlt <;> cases dir <;> simp [sortsBefore, hlt]

theorem sortsBefore_trans {dir : SortDir} {a b c : ℕ ×ₗ Js} (hab : sortsBefore dir a b = true)
    (hbc : sortsBefore dir b c = true) : a ≠ c ∧ sortsBefore dir a c = true := by
  cases dir with
  | asc =>
    simp only [sortsBefore, decide_eq_true_eq] at hab hbc ⊢
    exact ⟨(hab.trans hbc).ne, hab.trans hbc⟩
  | desc =>
    simp only [sortsBefore, decide_eq_true_eq] at hab hbc ⊢
    exact ⟨(hbc.trans hab).ne', hbc.trans hab⟩

theorem sortsBefore_asymm {dir : SortDir} {a b : ℕ ×ₗ Js} (hab : sortsBefore dir a b = true)
    (hba : sortsBefore dir b a = true) : False :=
  (sortsBefore_trans hab hba).1 rfl

theorem orderLe_total (order : List (String × SortDir)) (r s : SqlRow) :
    (orderLe d order r s || orderLe d order s r) = true := by
  induction order with
  | nil => rfl
  | cons e rest ih =>
    obtain ⟨c, dir⟩ := e
    by_cases heq : sortKey d (r c) = sortKey d (s c)
    · rw [orderLe_cons, orderLe_cons, if_pos heq, if_pos heq.symm]
      exact ih
    · rw [orderLe_cons, orderLe_cons, if_neg heq, if_neg (Ne.symm heq)]
      exact sortsBefore_total dir heq

theorem orderLe_trans (order : List (String × SortDir)) (r s t : SqlRow)
    (hrs : orderLe d order r s = true) (hst : orderLe d order s t = true) :
    orderLe d order r t = true := by
  induction order with
  | nil => rfl
  | cons e rest ih =>
    obtain ⟨c, dir⟩ := e
    rw [orderLe_cons] at hrs hst ⊢
    by_cases h₁ : sortKey d (r c) = sortKey d (s c)
    · rw [if_pos h₁] at hrs
      rw [h₁]
      by_cases h₂ : sortKey d (s c) = sortKey d (t c)
      · rw [if_pos h₂] at hst ⊢
        exact ih hrs hst
      · rw [if_neg h₂] at hst ⊢
        exact hst
    · rw [if_neg h₁] at hrs
      by_cases h₂ : sortKey d (s c) = sortKey d (t c)
      · rw [← h₂, if_neg h₁]
        exact hrs
      · rw [if_neg h₂] at hst
        obtain ⟨hne, hbefore⟩ := sortsBefore_trans hrs hst
        rw [if_neg hne]
        exact hbefore

/-- Rows that sort both ways tie in every order column. -/
theorem orderLe_antisymm {d : DialectName} {order : List (String × SortDir)} {r s : SqlRow}
    (hrs : orderLe d order r s = true) (hsr : orderLe d order s r = true) :
    ∀ e ∈ order, sortKey d (r e.1) = sortKey d (s e.1) := by
  induction order with
  | nil => exact fun e he => by cases he
  | cons e rest ih =>
    obtain ⟨c, dir⟩ := e
    rw [orderLe_cons] at hrs hsr
    by_cases heq : sortKey d (r c) = sortKey d (s c)
    · rw [if_pos heq] at hrs
      rw [if_pos heq.symm] at hsr
      rw [forall_mem_cons]
      exact ⟨heq, ih hrs hsr⟩
    · rw [if_neg heq] at hrs
      rw [if_neg (Ne.symm heq)] at hsr
      exact (sortsBefore_asymm hrs hsr).elim

/-! ### The row comparison -/

theorem compareRow_skip {greater : Bool} {x r : SqlRow} {cols : List String} (rest : List String)
    (h : ∀ c ∈ cols, x c = r c ∧ (r c).isNullish = false) :
    compareRow greater ((cols ++ rest).map fun c => (x c, r c))
      = compareRow greater (rest.map fun c => (x c, r c)) := by
  induction cols with
  | nil => rfl
  | cons c cols ih =>
    rw [forall_mem_cons] at h
    rw [cons_append, map_cons, compareRow, h.1.1, h.1.2, Bool.or_self,
      if_neg Bool.false_ne_true, if_pos rfl]
    exact ih h.2

theorem compareRow_self (greater : Bool) (r : SqlRow) (cols : List String) :
    compareRow greater (cols.map fun c => (r c, r c)) ≠ .yes := by
  induction cols with
  | nil => exact fun h => by cases h
  | cons c cols ih =>
    rw [map_cons, compareRow]
    split
    · exact fun h => by cases h
    · rw [if_pos rfl]
      exact ih

/-- The first present pair that differs decides. -/
theorem compareRow_differ {greater : Bool} {a b : Js} {rest : List (Js × Js)}
    (ha : a.isNullish = false) (hb : b.isNullish = false) (hne : a ≠ b) :
    compareRow greater ((a, b) :: rest)
      = Tri.ofBool (if greater then decide (b < a) else decide (a < b)) := by
  rw [compareRow, ha, hb, Bool.or_self, if_neg Bool.false_ne_true, if_neg hne]

/-! ### Steady orders -/

theorem steady_mem_key {nullable : String → Bool} {key : String} {dir : SortDir} :
    ∀ {order : List (String × SortDir)} {seen : List String},
      steady nullable key dir seen order = true → key ∈ order.map Prod.fst
  | [], _, h => by cases h
  | (c, d) :: rest, seen, h => by
      rw [map_cons, mem_cons]
      rw [steady] at h
      by_cases hseen : seen.contains c = true
      · rw [if_pos hseen] at h
        exact .inr (steady_mem_key h)
      · rw [if_neg hseen, Bool.and_eq_true, Bool.or_eq_true, Bool.and_eq_true, beq_iff_eq,
          beq_iff_eq] at h
        rcases h.2 with rfl | hrest
        · exact .inl rfl
        · exact .inr (steady_mem_key hrest.2)

/-- Along a steady order, the cursor after a row admits exactly the rows
that come later. -/
theorem steady_admits {dialect : DialectName} {nullable : String → Bool} {key : String}
    {dir : SortDir} {x r : SqlRow} (extra : List String)
    (hx : ∀ c, nullable c = false → (x c).isNullish = false)
    (hr : ∀ c, nullable c = false → (r c).isNullish = false)
    (hxk : (x key).isNullish = false) (hrk : (r key).isNullish = false) (hkey : x key ≠ r key) :
    ∀ (order : List (String × SortDir)) (seen : List String),
      steady nullable key dir seen order = true →
      (∀ c ∈ seen, x c = r c ∧ (r c).isNullish = false) →
      (compareRow (dir != .desc) ((order.map Prod.fst ++ extra).map fun c => (x c, r c)) = .yes ↔
        orderLe dialect order r x = true)
  | [], _, h, _ => by cases h
  | (c, d) :: rest, seen, h, hseen => by
      have hskip : x c = r c → (r c).isNullish = false →
          compareRow (dir != .desc)
              ((((c, d) :: rest).map Prod.fst ++ extra).map fun c => (x c, r c))
            = compareRow (dir != .desc) ((rest.map Prod.fst ++ extra).map fun c => (x c, r c)) := by
        intro heq hnull
        have hone : ∀ c' ∈ [c], x c' = r c' ∧ (r c').isNullish = false := by
          intro c' hc'
          rw [mem_singleton] at hc'
          subst hc'
          exact ⟨heq, hnull⟩
        exact compareRow_skip (rest.map Prod.fst ++ extra) hone
      rw [steady] at h
      by_cases hin : seen.contains c = true
      · rw [if_pos hin] at h
        obtain ⟨heq, hnull⟩ := hseen c (by simpa using hin)
        rw [hskip heq hnull, orderLe_cons, heq, if_pos rfl]
        exact steady_admits extra hx hr hxk hrk hkey rest seen h hseen
      · rw [if_neg hin, Bool.and_eq_true, beq_iff_eq, Bool.or_eq_true, beq_iff_eq,
          Bool.and_eq_true, Bool.not_eq_true'] at h
        obtain ⟨rfl, hc⟩ := h
        by_cases heq : x c = r c
        · rcases hc with rfl | ⟨hnull, hrest⟩
          · exact absurd heq hkey
          · rw [hskip heq (hr c hnull), orderLe_cons, heq, if_pos rfl]
            refine steady_admits extra hx hr hxk hrk hkey rest (c :: seen) hrest ?_
            rw [forall_mem_cons]
            exact ⟨⟨heq, hr c hnull⟩, hseen⟩
        · have hpresent : (x c).isNullish = false ∧ (r c).isNullish = false := by
            rcases hc with rfl | ⟨hnull, -⟩
            · exact ⟨hxk, hrk⟩
            · exact ⟨hx c hnull, hr c hnull⟩
          have hsort : ¬ sortKey dialect (r c) = sortKey dialect (x c) := by
            rw [sortKey_eq_iff dialect hpresent.2 hpresent.1]
            exact Ne.symm heq
          rw [map_cons, cons_append, map_cons,
            compareRow_differ hpresent.1 hpresent.2 heq, Tri.ofBool_eq_yes, orderLe_cons,
            if_neg hsort]
          cases d with
          | asc =>
            show decide (r c < x c) = true ↔
              decide (sortKey dialect (r c) < sortKey dialect (x c)) = true
            simp only [decide_eq_true_eq, sortKey_lt_iff dialect hpresent.2 hpresent.1]
          | desc =>
            show decide (x c < r c) = true ↔
              decide (sortKey dialect (x c) < sortKey dialect (r c)) = true
            simp only [decide_eq_true_eq, sortKey_lt_iff dialect hpresent.1 hpresent.2]

/-- Where an order that is not steady breaks: it never reaches the key,
or a column on the way to it has the other direction or can be `NULL`. -/
theorem steady_failure {nullable : String → Bool} {key : String} {dir : SortDir} :
    ∀ (order : List (String × SortDir)) (seen : List String), key ∉ seen →
      steady nullable key dir seen order = false →
      key ∉ order.map Prod.fst ∨ ∃ pre c d post, order = pre ++ (c, d) :: post ∧ c ∉ seen ∧
        c ∉ pre.map Prod.fst ∧ key ∉ pre.map Prod.fst ∧
        (d ≠ dir ∨ c ≠ key ∧ nullable c = true)
  | [], _, _, _ => .inl not_mem_nil
  | (c, d) :: rest, seen, hkey, h => by
      rw [steady] at h
      by_cases hin : seen.contains c = true
      · have hmem : c ∈ seen := by simpa using hin
        have hck : c ≠ key := by
          rintro rfl
          exact hkey hmem
        rw [if_pos hin] at h
        rcases steady_failure rest seen hkey h with hno | ⟨pre, c', d', post, rfl, hs, hp, hk, hbad⟩
        · refine .inl ?_
          rw [map_cons, mem_cons, not_or]
          exact ⟨Ne.symm hck, hno⟩
        · refine .inr ⟨(c, d) :: pre, c', d', post, rfl, hs, ?_, ?_, hbad⟩
          · rw [map_cons, mem_cons, not_or]
            refine ⟨?_, hp⟩
            rintro rfl
            exact hs hmem
          · rw [map_cons, mem_cons, not_or]
            exact ⟨Ne.symm hck, hk⟩
      · have hfresh : c ∉ seen := by simpa using hin
        rw [if_neg hin] at h
        by_cases hbad : d ≠ dir ∨ c ≠ key ∧ nullable c = true
        · exact .inr ⟨[], c, d, rest, rfl, hfresh, not_mem_nil, not_mem_nil, hbad⟩
        · simp only [not_or, not_not, not_and, Bool.not_eq_true] at hbad
          obtain ⟨rfl, hnull⟩ := hbad
          by_cases hck : c = key
          · subst hck
            simp at h
          · rw [hnull hck] at h
            have hrest : steady nullable key d (c :: seen) rest = false := by
              simpa [hck] using h
            have hkey' : key ∉ c :: seen := by
              rw [mem_cons, not_or]
              exact ⟨Ne.symm hck, hkey⟩
            rcases steady_failure rest (c :: seen) hkey' hrest with
              hno | ⟨pre, c', d', post, rfl, hs, hp, hk, hbad⟩
            · refine .inl ?_
              rw [map_cons, mem_cons, not_or]
              exact ⟨Ne.symm hck, hno⟩
            · rw [mem_cons, not_or] at hs
              refine .inr ⟨(c, d) :: pre, c', d', post, rfl, hs.2, ?_, ?_, hbad⟩
              · rw [map_cons, mem_cons, not_or]
                exact ⟨hs.1, hp⟩
              · rw [map_cons, mem_cons, not_or]
                exact ⟨Ne.symm hck, hk⟩

/-! ### The cursor of a SELECT -/

/-- The cursor compares the order columns, and the key behind them where
it is not one. -/
theorem comparedColumns_eq (options : SelectOptions) (key : String) :
    ∃ extra, comparedColumns options key = (orderOf options).map Prod.fst ++ extra := by
  have horder : (orderOf options).map Prod.fst = ((options.orderBy.map Record.keys).getD []).map
      fun col => camelToSnake col options.casingOverrides := by
    unfold Spec.orderOf buildOrderBy
    cases options.orderBy with
    | none => rfl
    | some order =>
      show (order.entries.map _).map Prod.fst = order.keys.map _
      rw [Record.keys, map_map, map_map]
      rfl
  rw [horder]
  unfold comparedColumns cursorColumns
  dsimp only
  split
  · exact ⟨[], (append_nil _).symm⟩
  · exact ⟨[camelToSnake key options.casingOverrides], map_append⟩

theorem key_mem_comparedColumns (options : SelectOptions) (key : String) :
    camelToSnake key options.casingOverrides ∈ comparedColumns options key := by
  refine mem_map_of_mem ?_
  unfold cursorColumns
  dsimp only
  split
  · rename_i h
    simpa using h
  · exact mem_append_right _ (mem_singleton_self key)

theorem comparesGreater_eq (options : SelectOptions) (key : String) :
    comparesGreater options key = (firstDir (orderOf options) != .desc) := by
  unfold comparesGreater Spec.orderOf buildOrderBy cursorColumns
  cases horder : options.orderBy with
  | none => rfl
  | some order =>
    obtain ⟨entries, hnodup⟩ := order
    cases entries with
    | nil => rfl
    | cons e es =>
      have hdir : orderDir (some ⟨e :: es, hnodup⟩) e.1 = e.2 := by
        show ((Record.get? ⟨e :: es, hnodup⟩ e.1).getD .asc) = e.2
        have hget : Record.get? ⟨e :: es, hnodup⟩ e.1 = some e.2 :=
          (Record.mem_entries_iff _).mp mem_cons_self
        rw [hget]
        rfl
      have hhead : (if ((e :: es).map Prod.fst).contains key then (e :: es).map Prod.fst
          else (e :: es).map Prod.fst ++ [key]).headD key = e.1 := by
        split <;> rfl
      show (orderDir (some ⟨e :: es, hnodup⟩) ((if ((e :: es).map Prod.fst).contains key
        then (e :: es).map Prod.fst else (e :: es).map Prod.fst ++ [key]).headD key) != .desc)
          = (e.2 != .desc)
      rw [hhead, hdir]

/-! ### Uniform orders -/

theorem conforms_key_ne {nullable : String → Bool} {key : String} {table : List SqlRow}
    (h : Conforms nullable key table) {r s : SqlRow} (hr : r ∈ table) (hs : s ∈ table)
    (hne : r ≠ s) : r key ≠ s key :=
  haveI : Std.Symm fun r s : SqlRow => r key ≠ s key := ⟨fun _ _ => Ne.symm⟩
  h.unique.forall hr hs hne

theorem conforms_nodup {nullable : String → Bool} {key : String} {table : List SqlRow}
    (h : Conforms nullable key table) : table.Nodup :=
  h.unique.imp fun hne heq => hne (congrArg (fun r => r key) heq)

theorem complete_of_uniform {engine : Engine} {d : Dialect} {nullable : String → Bool}
    {options : SelectOptions} {key : String} {limit : ℕ} (hpos : 0 < limit)
    (hread : Readable d options.casingOverrides options.where_)
    (hlimit : (options.take.orElse fun _ => options.limit) = some (limit : ℚ))
    (hoffset : options.offset = none)
    (huniform : Uniform nullable (camelToSnake key options.casingOverrides) (orderOf options))
    {table : List SqlRow}
    (htable : Conforms nullable (camelToSnake key options.casingOverrides) table) :
    Complete engine d options key table := by
  -- a uniform order is not empty, so the cursor leaves the order as it is
  have horder : ∀ cursor, buildOrderBy options.casingOverrides options.orderBy cursor
      = orderOf options := by
    intro cursor
    cases hby : options.orderBy with
    | none =>
      have hnil : orderOf options = [] := by
        unfold Spec.orderOf buildOrderBy
        rw [hby]
      rw [hnil] at huniform
      cases huniform
    | some order =>
      unfold Spec.orderOf
      rw [hby]
      rfl
  have hmem : ∀ x, x ∈ table.filter (filterMatches engine options.casingOverrides options.where_) →
      x ∈ table := fun x hx => (mem_filter.mp hx).1
  have hkeyed := htable.keyed
  have hfirst : pageAfter engine d options key table none
      = some (((table.filter (filterMatches engine options.casingOverrides options.where_)).mergeSort
        (orderLe engine.dialect (orderOf options))).take limit) := by
    rw [pageAfter_eq hread hlimit hoffset, horder]
    simp only [Option.all_none, Bool.and_true]
  have hnext : ∀ r ∈ table.filter (filterMatches engine options.casingOverrides options.where_),
      pageAfter engine d options key table (some r)
        = some ((((table.filter (filterMatches engine options.casingOverrides
          options.where_)).filter (cursorAdmits options key r)).mergeSort
            (orderLe engine.dialect (orderOf options))).take limit) := by
    intro r _
    rw [pageAfter_eq hread hlimit hoffset, horder, filter_filter]
    simp only [Option.all_some, Bool.and_comm]
  refine ⟨_, follows_mergeSort (orderLe_trans engine.dialect (orderOf options))
    (orderLe_total engine.dialect (orderOf options)) hpos hfirst hnext ?_ ?_ ?_,
    mergeSort_perm _ _, pairwise_mergeSort (orderLe_trans engine.dialect (orderOf options))
      (orderLe_total engine.dialect (orderOf options)) _⟩
  · exact (conforms_nodup htable).filter _
  · intro r hr s hs hrs hsr
    by_contra hne
    refine conforms_key_ne htable (hmem r hr) (hmem s hs) hne ?_
    obtain ⟨e, he, hkey⟩ := mem_map.mp (steady_mem_key huniform)
    have htie := orderLe_antisymm hrs hsr e he
    rw [hkey] at htie
    exact (sortKey_eq_iff engine.dialect (hkeyed r (hmem r hr)) (hkeyed s (hmem s hs))).mp htie
  · intro r hr x hx
    obtain ⟨extra, hcols⟩ := comparedColumns_eq options key
    unfold cursorAdmits
    rw [beq_iff_eq]
    by_cases heq : r = x
    · subst heq
      exact ⟨fun h => absurd h (compareRow_self _ _ _), fun h => absurd rfl h.2⟩
    · rw [hcols, comparesGreater_eq, and_iff_left heq]
      exact steady_admits extra (htable.present x (hmem x hx)) (htable.present r (hmem r hr))
        (hkeyed x (hmem x hx)) (hkeyed r (hmem r hr))
        (conforms_key_ne htable (hmem x hx) (hmem r hr) (Ne.symm heq)) (orderOf options) [] huniform
        fun c hc => by cases hc

/-! ### Orders that break -/

/-- The `i`-th key value along a direction. -/
def keyValue : SortDir → ℕ → Js
  | .asc, i => .num i
  | .desc, i => .num (-(i : ℚ))

/-- A row with the `i`-th key, `v` in one other column, and zeros. -/
def splitRow (key split : String) (e : SortDir) (v : Js) (i : ℕ) : SqlRow := fun c =>
  if c = key then keyValue e i else if c = split then v else .num 0

/-- The direction the key is sorted in. -/
def keyDir (key : String) (otherwise : SortDir) : List (String × SortDir) → SortDir
  | [] => otherwise
  | (c, d) :: rest => if c = key then d else keyDir key otherwise rest

theorem keyValue_present (e : SortDir) (i : ℕ) : (keyValue e i).isNullish = false := by
  cases e <;> rfl

/-- Later keys are sorted later along their direction. -/
theorem keyValue_before (e : SortDir) (d : DialectName) {i j : ℕ} (h : i < j) :
    sortsBefore e (sortKey d (keyValue e i)) (sortKey d (keyValue e j)) = true := by
  cases e with
  | asc =>
    rw [sortsBefore, decide_eq_true_eq,
      sortKey_lt_iff d (keyValue_present _ i) (keyValue_present _ j)]
    exact Js.num_lt_num.mpr (Nat.cast_lt.mpr h)
  | desc =>
    rw [sortsBefore, decide_eq_true_eq,
      sortKey_lt_iff d (keyValue_present _ j) (keyValue_present _ i)]
    exact Js.num_lt_num.mpr (neg_lt_neg (Nat.cast_lt.mpr h))

theorem keyValue_ne (e : SortDir) {i j : ℕ} (h : i < j) : keyValue e i ≠ keyValue e j := by
  intro heq
  have hbefore := keyValue_before e .postgres h
  rw [heq] at hbefore
  exact sortsBefore_asymm hbefore hbefore

theorem splitRow_key (key split : String) (e : SortDir) (v : Js) (i : ℕ) :
    splitRow key split e v i key = keyValue e i := if_pos rfl

theorem splitRow_split {key split : String} (h : split ≠ key) (e : SortDir) (v : Js) (i : ℕ) :
    splitRow key split e v i split = v := by
  unfold splitRow
  rw [if_neg h, if_pos rfl]

theorem splitRow_other {key split c : String} (hk : c ≠ key) (hs : c ≠ split) (e : SortDir)
    (v : Js) (i : ℕ) : splitRow key split e v i c = .num 0 := by
  unfold splitRow
  rw [if_neg hk, if_neg hs]

theorem keyDir_of_not_mem {key : String} {otherwise : SortDir} :
    ∀ {order : List (String × SortDir)}, key ∉ order.map Prod.fst →
      keyDir key otherwise order = otherwise
  | [], _ => rfl
  | (c, d) :: rest, h => by
      rw [map_cons, mem_cons, not_or] at h
      rw [keyDir, if_neg (Ne.symm h.1)]
      exact keyDir_of_not_mem h.2

theorem keyDir_append {key : String} {otherwise d : SortDir} {post : List (String × SortDir)} :
    ∀ {pre : List (String × SortDir)}, key ∉ pre.map Prod.fst →
      keyDir key otherwise (pre ++ (key, d) :: post) = d
  | [], _ => if_pos rfl
  | (c, d') :: pre, h => by
      rw [map_cons, mem_cons, not_or] at h
      rw [cons_append, keyDir, if_neg (Ne.symm h.1)]
      exact keyDir_append h.2

theorem orderLe_of_key {d : DialectName} {key : String} {otherwise : SortDir} {r s : SqlRow}
    (hsame : ∀ c, c ≠ key → r c = s c) :
    ∀ {order : List (String × SortDir)}, sortsBefore (keyDir key otherwise order)
        (sortKey d (r key)) (sortKey d (s key)) = true → orderLe d order r s = true
  | [], _ => rfl
  | (c, dir) :: rest, h => by
      rw [orderLe_cons]
      rw [keyDir] at h
      by_cases hc : c = key
      · subst hc
        rw [if_pos rfl] at h
        split
        · rename_i heq
          rw [heq] at h
          exact (sortsBefore_asymm h h).elim
        · exact h
      · rw [if_neg hc] at h
        rw [if_pos (by rw [hsame c hc])]
        exact orderLe_of_key hsame h

/-- Rows that agree up to a column are sorted by it. -/
theorem orderLe_append {d : DialectName} {c : String} {dir : SortDir}
    {post : List (String × SortDir)} {r s : SqlRow}
    (hbefore : sortsBefore dir (sortKey d (r c)) (sortKey d (s c)) = true) :
    ∀ {pre : List (String × SortDir)}, (∀ e ∈ pre, r e.1 = s e.1) →
      orderLe d (pre ++ (c, dir) :: post) r s = true
  | [], _ => by
      rw [nil_append, orderLe_cons]
      split
      · rename_i heq
        rw [heq] at hbefore
        exact (sortsBefore_asymm hbefore hbefore).elim
      · exact hbefore
  | (c', dir') :: pre, h => by
      rw [forall_mem_cons] at h
      rw [cons_append, orderLe_cons, if_pos (by rw [h.1])]
      exact orderLe_append hbefore h.2

theorem compareRow_of_key {greater : Bool} {key : String} {x r : SqlRow}
    (hsame : ∀ c, c ≠ key → x c = r c ∧ (r c).isNullish = false)
    (hx : (x key).isNullish = false) (hr : (r key).isNullish = false) (hne : x key ≠ r key) :
    ∀ {cols : List String}, key ∈ cols → compareRow greater (cols.map fun c => (x c, r c))
      = compareRow greater [(x key, r key)]
  | [], h => by cases h
  | c :: cols, h => by
      by_cases hc : c = key
      · subst hc
        exact (compareRow_differ hx hr hne).trans (compareRow_differ hx hr hne).symm
      · have hrest : key ∈ cols := by
          rcases mem_cons.mp h with rfl | hmem
          · exact absurd rfl hc
          · exact hmem
        obtain ⟨heq, hpresent⟩ := hsame c hc
        rw [map_cons, compareRow, heq, hpresent, Bool.or_self, if_neg Bool.false_ne_true,
          if_pos rfl]
        exact compareRow_of_key hsame hx hr hne hrest

/-- `limit` rows with `a` in the split column, then one with `b`. -/
def splitTable (key split : String) (e : SortDir) (a b : Js) (limit : ℕ) : List SqlRow :=
  (List.range limit).map (splitRow key split e a) ++ [splitRow key split e b limit]

theorem splitTable_conforms {nullable : String → Bool} {key split : String} {a b : Js}
    (e : SortDir) (limit : ℕ)
    (hpresent : nullable split = false → a.isNullish = false ∧ b.isNullish = false) :
    Conforms nullable key (splitTable key split e a b limit) := by
  have hrow : ∀ r ∈ splitTable key split e a b limit, ∃ i v, (v = a ∨ v = b) ∧
      r = splitRow key split e v i := by
    intro r hr
    rcases mem_append.mp hr with hr | hr
    · obtain ⟨i, -, rfl⟩ := mem_map.mp hr
      exact ⟨i, a, .inl rfl, rfl⟩
    · rw [mem_singleton] at hr
      exact ⟨limit, b, .inr rfl, hr⟩
  refine ⟨fun r hr c hc => ?_, fun r hr => ?_, ?_⟩
  · obtain ⟨i, v, hv, rfl⟩ := hrow r hr
    by_cases hk : c = key
    · subst hk
      rw [splitRow_key]
      exact keyValue_present e i
    · by_cases hs : c = split
      · subst hs
        rw [splitRow_split hk]
        rcases hv with rfl | rfl
        · exact (hpresent hc).1
        · exact (hpresent hc).2
      · rw [splitRow_other hk hs]
        rfl
  · obtain ⟨i, v, -, rfl⟩ := hrow r hr
    rw [splitRow_key]
    exact keyValue_present e i
  · refine pairwise_append.mpr ⟨?_, pairwise_singleton _ _, ?_⟩
    · rw [pairwise_map]
      refine pairwise_lt_range.imp fun hlt => ?_
      rw [splitRow_key, splitRow_key]
      exact keyValue_ne e hlt
    · intro r hr s hs
      obtain ⟨i, hi, rfl⟩ := mem_map.mp hr
      rw [mem_singleton] at hs
      subst hs
      rw [splitRow_key, splitRow_key]
      exact keyValue_ne e (mem_range.mp hi)

theorem splitTable_sorted {d : DialectName} {key split : String} {e : SortDir} {a b : Js}
    {limit : ℕ} {order : List (String × SortDir)} (hkey : keyDir key e order = e)
    (hlast : ∀ i < limit,
      orderLe d order (splitRow key split e a i) (splitRow key split e b limit) = true) :
    (splitTable key split e a b limit).Pairwise fun r s => orderLe d order r s = true := by
  refine pairwise_append.mpr ⟨?_, pairwise_singleton _ _, ?_⟩
  · rw [pairwise_map]
    refine pairwise_lt_range.imp fun {i j} hlt => ?_
    have hsame : ∀ c, c ≠ key → splitRow key split e a i c = splitRow key split e a j c := by
      intro c hc
      unfold splitRow
      rw [if_neg hc, if_neg hc]
    have hbefore : sortsBefore (keyDir key e order) (sortKey d (splitRow key split e a i key))
        (sortKey d (splitRow key split e a j key)) = true := by
      rw [hkey, splitRow_key, splitRow_key]
      exact keyValue_before e d hlt
    exact orderLe_of_key hsame hbefore
  · intro r hr s hs
    obtain ⟨i, hi, rfl⟩ := mem_map.mp hr
    rw [mem_singleton] at hs
    subst hs
    exact hlast i (mem_range.mp hi)

theorem keyDir_idem (key : String) (otherwise : SortDir) (order : List (String × SortDir)) :
    keyDir key (keyDir key otherwise order) order = keyDir key otherwise order := by
  induction order with
  | nil => rfl
  | cons e rest ih =>
    obtain ⟨c, d⟩ := e
    by_cases hc : c = key
    · simp only [keyDir, if_pos hc]
    · simp only [keyDir, if_neg hc]
      exact ih

/-- A value sorted later in one direction is not compared as later in
the other. -/
theorem compareRow_other_dir {dir first : SortDir} (hdir : dir ≠ first) {a b : Js}
    (ha : a.isNullish = false) (hb : b.isNullish = false) {d : DialectName}
    (hbefore : sortsBefore dir (sortKey d a) (sortKey d b) = true) (rest : List (Js × Js)) :
    compareRow (first != .desc) ((b, a) :: rest) ≠ .yes := by
  have hne : b ≠ a := by
    rintro rfl
    exact sortsBefore_asymm hbefore hbefore
  rw [compareRow_differ hb ha hne]
  cases dir with
  | asc =>
    cases first with
    | asc => exact absurd rfl hdir
    | desc =>
      rw [sortsBefore, decide_eq_true_eq, sortKey_lt_iff _ ha hb] at hbefore
      simp [hbefore.le]
  | desc =>
    cases first with
    | desc => exact absurd rfl hdir
    | asc =>
      rw [sortsBefore, decide_eq_true_eq, sortKey_lt_iff _ hb ha] at hbefore
      simp [hbefore.le]

section Failures

variable {engine : Engine} {d : Dialect} {options : SelectOptions} {key : String} {limit : ℕ}
  (hread : Readable d options.casingOverrides options.where_) (hwhere : options.where_ = none)
  (hlimit : (options.take.orElse fun _ => options.limit) = some (limit : ℚ))
  (hoffset : options.offset = none)

include hread hwhere hlimit hoffset

/-- A sorted table one row longer than a page, whose last row no cursor
admits, is not read completely. -/
theorem not_complete_of_unreached {front : List SqlRow} {z : SqlRow}
    (hlen : front.length = limit) (hfresh : z ∉ front)
    (hsorted : (front ++ [z]).Pairwise fun r s =>
      orderLe engine.dialect (orderOf options) r s = true)
    (hunreached : ∀ r ∈ front ++ [z], cursorAdmits options key r z = false) :
    ¬ Complete engine d options key (front ++ [z]) := by
  rintro ⟨rows, hfollows, hperm, -⟩
  have hmatch : ∀ x, filterMatches engine options.casingOverrides options.where_ x = true := by
    intro x
    rw [hwhere]
    rfl
  have hz : z ∈ rows := by
    rw [hperm.mem_iff, mem_filter]
    exact ⟨mem_append_right _ (mem_singleton_self z), hmatch z⟩
  have hfirst : ∀ page, pageAfter engine d options key (front ++ [z]) none = some page →
      z ∉ page ∧ ∀ x ∈ page, x ∈ front ++ [z] := by
    intro page hpage
    rw [pageAfter_eq hread hlimit hoffset] at hpage
    simp only [hmatch, Option.all_none, Bool.and_true, filter_true, Option.map_none] at hpage
    have hsame : (front ++ [z]).mergeSort (orderLe engine.dialect (orderOf options))
        = front ++ [z] := mergeSort_of_pairwise hsorted
    have hfront : page = front := by
      rw [← Option.some.inj hpage]
      show ((front ++ [z]).mergeSort (orderLe engine.dialect (orderOf options))).take limit = front
      rw [hsame, ← hlen, take_left]
    rw [hfront]
    exact ⟨hfresh, fun x hx => mem_append_left _ hx⟩
  have hnext : ∀ r ∈ front ++ [z], ∀ page,
      pageAfter engine d options key (front ++ [z]) (some r) = some page →
        z ∉ page ∧ ∀ x ∈ page, x ∈ front ++ [z] := by
    intro r hr page hpage
    rw [pageAfter_eq hread hlimit hoffset] at hpage
    have hin : ∀ x ∈ page, x ∈ front ++ [z] ∧ cursorAdmits options key r x = true := by
      intro x hx
      rw [← Option.some.inj hpage] at hx
      have hx' := mem_filter.mp (mem_mergeSort.mp (mem_of_mem_take hx))
      rw [hmatch, Bool.true_and] at hx'
      exact hx'
    refine ⟨fun hzp => ?_, fun x hx => (hin x hx).1⟩
    exact absurd (hin z hzp).2 (by rw [hunreached r hr]; decide)
  exact not_mem_of_follows hfirst hnext hfollows hz

/-- The split table is not read completely when it is sorted and no
cursor from its front admits its last row. -/
theorem splitTable_not_complete {split : String} {e : SortDir} {a b : Js}
    (hkey : keyDir (camelToSnake key options.casingOverrides) e (orderOf options) = e)
    (hlast : ∀ i < limit, orderLe engine.dialect (orderOf options)
      (splitRow (camelToSnake key options.casingOverrides) split e a i)
      (splitRow (camelToSnake key options.casingOverrides) split e b limit) = true)
    (hunreached : ∀ i < limit, cursorAdmits options key
      (splitRow (camelToSnake key options.casingOverrides) split e a i)
      (splitRow (camelToSnake key options.casingOverrides) split e b limit) = false) :
    ¬ Complete engine d options key
      (splitTable (camelToSnake key options.casingOverrides) split e a b limit) := by
  refine not_complete_of_unreached hread hwhere hlimit hoffset ?_ ?_
    (splitTable_sorted hkey hlast) ?_
  · rw [length_map, length_range]
  · intro hmem
    obtain ⟨i, hi, heq⟩ := mem_map.mp hmem
    have hkeys : splitRow (camelToSnake key options.casingOverrides) split e a i
          (camelToSnake key options.casingOverrides)
        = splitRow (camelToSnake key options.casingOverrides) split e b limit
          (camelToSnake key options.casingOverrides) := by rw [heq]
    rw [splitRow_key, splitRow_key] at hkeys
    exact keyValue_ne e (mem_range.mp hi) hkeys
  · intro r hr
    rcases mem_append.mp hr with hr | hr
    · obtain ⟨i, hi, rfl⟩ := mem_map.mp hr
      exact hunreached i (mem_range.mp hi)
    · rw [mem_singleton] at hr
      subst hr
      unfold cursorAdmits
      rw [beq_eq_false_iff_ne]
      exact compareRow_self _ _ _

/-- An order that never reaches the key, or reaches it in the other
direction, is not read completely: rows that only differ in the key. -/
theorem not_complete_of_key {e : SortDir}
    (hkey : keyDir (camelToSnake key options.casingOverrides) e (orderOf options) = e)
    (he : e ≠ firstDir (orderOf options)) (nullable : String → Bool) :
    ∃ table, Conforms nullable (camelToSnake key options.casingOverrides) table ∧
      ¬ Complete engine d options key table := by
  let skey := camelToSnake key options.casingOverrides
  have hsame : ∀ i j c, c ≠ skey →
      splitRow skey skey e (.num 0) i c = splitRow skey skey e (.num 0) j c ∧
        (splitRow skey skey e (.num 0) j c).isNullish = false := by
    intro i j c hc
    rw [splitRow_other hc hc, splitRow_other hc hc]
    exact ⟨rfl, rfl⟩
  refine ⟨splitTable skey skey e (.num 0) (.num 0) limit,
    splitTable_conforms e limit fun _ => ⟨rfl, rfl⟩,
    splitTable_not_complete hread hwhere hlimit hoffset hkey ?_ ?_⟩
  · intro i hi
    have hbefore : sortsBefore (keyDir skey e (orderOf options))
        (sortKey engine.dialect (splitRow skey skey e (.num 0) i skey))
        (sortKey engine.dialect (splitRow skey skey e (.num 0) limit skey)) = true := by
      rw [hkey, splitRow_key, splitRow_key]
      exact keyValue_before e _ hi
    exact orderLe_of_key (fun c hc => (hsame i limit c hc).1) hbefore
  · intro i hi
    unfold cursorAdmits
    rw [compareRow_of_key (hsame limit i) (by rw [splitRow_key]; exact keyValue_present e limit)
      (by rw [splitRow_key]; exact keyValue_present e i)
      (by rw [splitRow_key, splitRow_key]; exact Ne.symm (keyValue_ne e hi))
      (key_mem_comparedColumns options key), comparesGreater_eq, beq_eq_false_iff_ne, splitRow_key,
      splitRow_key]
    exact compareRow_other_dir he (keyValue_present e i) (keyValue_present e limit)
      (keyValue_before e .postgres hi) []

/-- An order with a column on the way to the key in which some value
sorts before another that no cursor admits after it is not read
completely: rows that differ in that column and the key. -/
theorem not_complete_of_split {nullable : String → Bool}
    {pre post : List (String × SortDir)} {c : String} {dir : SortDir}
    (horder : orderOf options = pre ++ (c, dir) :: post) (hc : c ∉ pre.map Prod.fst)
    (hk : camelToSnake key options.casingOverrides ∉ pre.map Prod.fst)
    (hck : c ≠ camelToSnake key options.casingOverrides) {a b : Js}
    (hpresent : nullable c = false → a.isNullish = false ∧ b.isNullish = false)
    (hbefore : sortsBefore dir (sortKey engine.dialect a) (sortKey engine.dialect b) = true)
    (hunreached : ∀ rest, compareRow (firstDir (orderOf options) != .desc) ((b, a) :: rest) ≠ .yes) :
    ∃ table, Conforms nullable (camelToSnake key options.casingOverrides) table ∧
      ¬ Complete engine d options key table := by
  let skey := camelToSnake key options.casingOverrides
  let e := keyDir skey .asc (orderOf options)
  have hpre : ∀ i j, ∀ c' ∈ pre.map Prod.fst, splitRow skey c e b i c' = splitRow skey c e a j c' ∧
      (splitRow skey c e a j c').isNullish = false := by
    intro i j c' hc'
    have hne : c' ≠ skey := by
      rintro rfl
      exact hk hc'
    have hnc : c' ≠ c := by
      rintro rfl
      exact hc hc'
    rw [splitRow_other hne hnc, splitRow_other hne hnc]
    exact ⟨rfl, rfl⟩
  refine ⟨splitTable skey c e a b limit, splitTable_conforms e limit hpresent,
    splitTable_not_complete hread hwhere hlimit hoffset (keyDir_idem _ _ _) ?_ ?_⟩
  · intro i _
    rw [horder]
    refine orderLe_append ?_ fun p hp => ?_
    · rw [splitRow_split hck, splitRow_split hck]
      exact hbefore
    · exact (hpre limit i p.1 (mem_map_of_mem hp)).1.symm
  · intro i _
    obtain ⟨extra, hcols⟩ := comparedColumns_eq options key
    have hsplit : comparedColumns options key
        = pre.map Prod.fst ++ c :: (post.map Prod.fst ++ extra) := by
      rw [hcols, horder]
      simp only [List.map_append, List.map_cons, List.append_assoc, List.cons_append]
    unfold cursorAdmits
    rw [hsplit, compareRow_skip _ (hpre limit i), comparesGreater_eq, beq_eq_false_iff_ne,
      map_cons, splitRow_split hck, splitRow_split hck]
    exact hunreached _

omit hread hwhere hlimit hoffset in
theorem exists_null_before (d : DialectName) (dir : SortDir) :
    ∃ a b : Js, (a.isNullish || b.isNullish) = true ∧
      sortsBefore dir (sortKey d a) (sortKey d b) = true := by
  have hfirst : ∀ d, sortKey d .null < sortKey d (.num 0) ∨ sortKey d (.num 0) < sortKey d .null := by
    intro d
    cases d
    · exact .inr (Prod.Lex.toLex_lt_toLex.mpr (.inl Nat.zero_lt_one))
    · exact .inl (Prod.Lex.toLex_lt_toLex.mpr (.inl Nat.zero_lt_one))
  rcases hfirst d with h | h <;> cases dir
  · exact ⟨.null, .num 0, rfl, decide_eq_true h⟩
  · exact ⟨.num 0, .null, rfl, decide_eq_true h⟩
  · exact ⟨.num 0, .null, rfl, decide_eq_true h⟩
  · exact ⟨.null, .num 0, rfl, decide_eq_true h⟩

/-- An order that is not uniform misses a row of some table. -/
theorem exists_not_complete {nullable : String → Bool}
    (hbroken : ¬ Uniform nullable (camelToSnake key options.casingOverrides) (orderOf options)) :
    ∃ table, Conforms nullable (camelToSnake key options.casingOverrides) table ∧
      ¬ Complete engine d options key table := by
  rcases steady_failure _ [] not_mem_nil (Bool.eq_false_iff.mpr hbroken) with
    hno | ⟨pre, c, dir, post, horder, -, hc, hk, hbad⟩
  · obtain ⟨e, he⟩ : ∃ e, e ≠ firstDir (orderOf options) := by
      cases firstDir (orderOf options)
      · exact ⟨.desc, by decide⟩
      · exact ⟨.asc, by decide⟩
    exact not_complete_of_key hread hwhere hlimit hoffset (keyDir_of_not_mem hno) he nullable
  · by_cases hck : c = camelToSnake key options.casingOverrides
    · subst hck
      have hdir : dir ≠ firstDir (orderOf options) := by
        rcases hbad with hdir | ⟨hne, -⟩
        · exact hdir
        · exact absurd rfl hne
      have hkeyDir : keyDir (camelToSnake key options.casingOverrides) dir (orderOf options)
          = dir := by
        rw [horder]
        exact keyDir_append hk
      exact not_complete_of_key hread hwhere hlimit hoffset hkeyDir hdir nullable
    · rcases hbad with hdir | ⟨-, hnull⟩
      · -- the column is sorted one way and compared the other
        have ha : (keyValue dir 0).isNullish = false := keyValue_present dir 0
        have hb : (keyValue dir 1).isNullish = false := keyValue_present dir 1
        have hbefore := keyValue_before dir engine.dialect Nat.zero_lt_one
        exact not_complete_of_split hread hwhere hlimit hoffset horder hc hk hck
          (fun _ => ⟨ha, hb⟩) hbefore (compareRow_other_dir hdir ha hb hbefore)
      · -- a `NULL` is sorted before or after the values, and compared with none
        obtain ⟨a, b, hnullish, hbefore⟩ := exists_null_before engine.dialect dir
        refine not_complete_of_split hread hwhere hlimit hoffset horder hc hk hck
          (fun hpresent => ?_) hbefore fun rest => ?_
        · rw [hnull] at hpresent
          cases hpresent
        · rw [compareRow, Bool.or_comm, hnullish, if_pos rfl]
          exact fun h => by cases h

end Failures

/-- Cursor pagination. Following the pages of a positive limit reads
every table, under every filter, completely and in order if and only if
the order reaches the key in one direction over columns that are never
`NULL`. -/
theorem pagination_complete_iff (engine : Engine) (d : Dialect) (nullable : String → Bool)
    (options : SelectOptions) (key : String) (limit : ℕ) (hpos : 0 < limit)
    (hlimit : (options.take.orElse fun _ => options.limit) = some (limit : ℚ))
    (hoffset : options.offset = none) :
    (∀ where_, Readable d options.casingOverrides where_ → ∀ table,
      Conforms nullable (camelToSnake key options.casingOverrides) table →
        Complete engine d { options with where_ := where_ } key table) ↔
      Uniform nullable (camelToSnake key options.casingOverrides) (orderOf options) := by
  constructor
  · intro hcomplete
    by_contra hbroken
    have hread : Readable d options.casingOverrides none :=
      ⟨⟨_, rfl⟩, fun f hf => by cases hf⟩
    obtain ⟨table, htable, hnot⟩ : ∃ table,
        Conforms nullable (camelToSnake key options.casingOverrides) table ∧
          ¬ Complete engine d { options with where_ := none } key table :=
      @exists_not_complete engine d { options with where_ := none } key limit hread rfl hlimit
        hoffset nullable hbroken
    exact hnot (hcomplete none hread table htable)
  · intro huniform where_ hread table htable
    exact @complete_of_uniform engine d nullable { options with where_ := where_ } key limit hpos
      hread hlimit hoffset huniform table htable

/-- Pages of two posts in the given order. -/
def postPages (order : List (String × SortDir)) : SelectOptions where
  table := "posts"
  columns := none
  where_ := none
  orderBy := some (.ofList order)
  limit := some 2
  offset := none
  withCount := false
  cursor := none
  take := none
  casingOverrides := none

def postRow (createdAt id : ℚ) : SqlRow := fun c =>
  if c = "id" then .num id else .num createdAt

/-- Three posts created at the same time, by descending `id`. -/
def postTable : List SqlRow := [postRow 1 3, postRow 1 2, postRow 1 1]

theorem postTable_conforms : Conforms (fun _ => false) "id" postTable := by
  have hpresent : ∀ t i c, (postRow t i c).isNullish = false := by
    intro t i c
    unfold postRow
    split <;> rfl
  refine ⟨fun row hrow c _ => ?_, fun row hrow => ?_, ?_⟩
  · simp only [postTable, mem_cons, not_mem_nil, or_false] at hrow
    rcases hrow with rfl | rfl | rfl <;> exact hpresent _ _ _
  · simp only [postTable, mem_cons, not_mem_nil, or_false] at hrow
    rcases hrow with rfl | rfl | rfl <;> exact hpresent _ _ _
  · simp [postTable, postRow]

theorem pagination_complete_posts :
    Complete scalarEngine postgresDialect (postPages [("createdAt", .desc), ("id", .desc)]) "id"
      postTable :=
  (pagination_complete_iff scalarEngine postgresDialect (fun _ => false)
    (postPages [("createdAt", .desc), ("id", .desc)]) "id" 2 (by decide) rfl rfl).mpr
      (by unfold Uniform; decide) none ⟨⟨_, rfl⟩, fun f hf => by cases hf⟩ postTable
      postTable_conforms

/-- In the order `createdAt ASC, id DESC` the cursor after the second
post is `(created_at, id) > (1, 2)`, which never admits the third. -/
theorem pagination_misses_post :
    ¬ Complete scalarEngine postgresDialect (postPages [("createdAt", .asc), ("id", .desc)]) "id"
      postTable := by
  refine @not_complete_of_unreached scalarEngine postgresDialect
    (postPages [("createdAt", .asc), ("id", .desc)]) "id" 2 ⟨⟨_, rfl⟩, fun f hf => by cases hf⟩ rfl
    rfl rfl [postRow 1 3, postRow 1 2] (postRow 1 1) rfl ?_ ?_ ?_
  · intro hmem
    simp only [mem_cons, not_mem_nil, or_false] at hmem
    rcases hmem with heq | heq
    · have hid := congrFun heq "id"
      simp [postRow] at hid
    · have hid := congrFun heq "id"
      simp [postRow] at hid
  · decide
  · decide

end Vertz.Proofs
