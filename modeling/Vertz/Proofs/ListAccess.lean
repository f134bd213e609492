import Mathlib.Data.Nat.Cast.Order.Ring
import Vertz.Proofs.PushDown
import Vertz.Proofs.Statements
import Vertz.Spec.ListAccess

/-!
# `Vertz.Proofs.ListAccess`: the rows `list` returns
-/

namespace Vertz.Proofs

open Vertz.Lib
open Vertz.Db
open Vertz.Db.Sql
open Vertz.Spec
open Vertz.Server.Entity Record

/-! ### The where object -/

section

variable (entity : EntityDefinition) (options : CrudPipelineOptions) (ctx : BaseContext)

variable (rawWhere : Option (Record Js))

theorem cleanWhere_get? (key : String) :
    ((cleanWhere entity rawWhere).getD .empty).get? key =
      if (hiddenKeys entity.table).contains key then none
      else (rawWhere.getD .empty).get? key := by
  have hstrip : ∀ w : Record Js, (stripHiddenFields entity.table w).get? key =
      if (hiddenKeys entity.table).contains key then none else w.get? key := by
    intro w
    unfold stripHiddenFields
    rw [get?_filter]
    cases (hiddenKeys entity.table).contains key <;> rfl
  unfold cleanWhere
  cases rawWhere with
  | none =>
    show none = _
    split <;> rfl
  | some w =>
    rw [Option.map_some, Option.getD_some, ← hstrip]
    cases hempty : (stripHiddenFields entity.table w).entries with
    | nil =>
      have hnone : (stripHiddenFields entity.table w).get? key = none := by
        unfold Record.get?
        rw [hempty]
        rfl
      rw [hnone, Option.filter_some, hempty]
      rfl
    | cons e es =>
      rw [Option.filter_some, hempty]
      rfl

/-- The tenant filters set their key; the others keep their value. -/
theorem tenantFilters_get? (w : Record Js) (store : Store) (key : String) :
    ((withIndirect options ctx store (withTenantFilter entity options ctx (some w))).getD
        .empty).get? key =
      if tenantKey entity options key then
        ((withIndirect options ctx store (withTenantFilter entity options ctx (some .empty))).getD
          .empty).get? key
      else w.get? key := by
  unfold withIndirect withTenantFilter tenantKey resolveIndirectTenantWhere
  cases options.tenantChain with
  | none =>
    dsimp only
    cases entity.tenantScoped with
    | false => rfl
    | true =>
      show ((w.insert _ _).get? key) = if (key == _) = true then
        ((Record.empty.insert _ _).get? key) else w.get? key
      rw [get?_insert, get?_insert]
      by_cases h : entity.tenantColumnOr = key
      · rw [if_pos h, if_pos h, if_pos (beq_iff_eq.mpr h.symm)]
      · have hne : ¬ (key == entity.tenantColumnOr) = true := fun he =>
          h (beq_iff_eq.mp he).symm
        rw [if_neg h, if_neg hne]
  | some chain =>
    dsimp only
    have hscoped : ∀ v : Record Js, (if (!entity.tenantScoped) = true then some v
        else if (some chain).isSome = true then some v
        else some (((some v).getD .empty).insert entity.tenantColumnOr
          (nullable (resolveTenantIdForFilter entity options ctx)))) = some v := by
      intro v
      cases entity.tenantScoped <;> rfl
    rw [hscoped, hscoped]
    cases options.queryParentIds with
    | none => rfl
    | some query =>
      show ((w.spread (only _ _)).get? key) = if (key == _) = true then
        ((Record.empty.spread (only _ _)).get? key) else w.get? key
      rw [get?_spread, get?_spread]
      by_cases h : chain.firstHop.foreignKey = key
      · have honly : ∀ v : Js, (only chain.firstHop.foreignKey v).get? key = some v := by
          intro v
          show Record.lookup key [(chain.firstHop.foreignKey, v)] = some v
          rw [Record.lookup, if_pos h]
        rw [if_pos (beq_iff_eq.mpr h.symm), honly]
        rfl
      · have honly : ∀ v : Js, (only chain.firstHop.foreignKey v).get? key = none := by
          intro v
          show Record.lookup key [(chain.firstHop.foreignKey, v)] = none
          rw [Record.lookup, if_neg h]
          rfl
        have hne : ¬ (key == chain.firstHop.foreignKey) = true := fun he =>
          h (beq_iff_eq.mp he).symm
        rw [if_neg hne, honly]
        rfl

/-- Which filter a key of the where object comes from. -/
theorem listWhere_get? (store : Store) (key : String) :
    ((listWhere entity options ctx rawWhere store).getD .empty).get? key =
      if tenantKey entity options key || (hiddenKeys entity.table).contains key then
        ((listWhere entity options ctx none store).getD .empty).get? key
      else
        ((rawWhere.getD .empty).get? key).or
          (((extractWhereConditions "list" entity.access ctx).getD .empty).get? key) := by
  unfold listWhere
  rw [tenantFilters_get?, tenantFilters_get? entity options ctx
    ((Record.spread _ ((cleanWhere entity none).getD .empty)))]
  cases tenantKey entity options key with
  | true => rfl
  | false =>
    simp only [Bool.false_eq_true, if_false, Bool.false_or, get?_spread, cleanWhere_get?]
    cases (hiddenKeys entity.table).contains key <;> rfl

/-- The fixed conditions are what the where object has without the user's
filter, under the keys he cannot set. -/
theorem fixedWhere_get? (b : Backend) (store : Store) (key : String) :
    (fixedWhere b entity options ctx store).get? key =
      if settable b entity options key then none
      else ((listWhere entity options ctx none store).getD .empty).get? key := by
  unfold fixedWhere
  dsimp only
  rw [tenantFilters_get?, listWhere_get?, get?_filter]
  unfold listWhere settable
  rw [tenantFilters_get? entity options ctx
    ((Record.spread _ ((cleanWhere entity none).getD .empty)))]
  simp only [get?_spread, cleanWhere_get?]
  cases tenantKey entity options key <;> cases (hiddenKeys entity.table).contains key <;>
    cases readableKey b.dialect key <;> simp [Record.get?, Record.empty, Record.lookup]

theorem listWhere_isSome (store : Store) :
    ∃ w, listWhere entity options ctx rawWhere store = some w := by
  unfold listWhere withIndirect withTenantFilter
  dsimp only
  split
  · split_ifs <;> exact ⟨_, rfl⟩
  · exact ⟨_, rfl⟩

end

/-! ### Replacing a condition -/

/-- A value that imposes nothing under the key. -/
def neutral (key : String) : Js :=
  if key = "OR" then .arr [.obj [("id", .obj [("notIn", .arr [])])]]
  else if key = "AND" then .arr []
  else if key = "NOT" then .obj [("OR", .arr [])]
  else .obj [("notIn", .arr [])]

/-- An empty `notIn` is the constant `TRUE`. -/
theorem entrySelects_notIn (columns : List String) (engine : Engine) (d : Dialect) (row : SqlRow)
    {key : String} {c : ColumnRef} (hor : key ≠ "OR") (hand : key ≠ "AND") (hnot : key ≠ "NOT")
    (hcolumn : resolveColumnRef key none d = .ok c) :
    entrySelects columns engine d row (key, .obj [("notIn", .arr [])]) := by
  have hlogical : ¬ (key = "OR" ∨ key = "AND" ∨ key = "NOT") :=
    not_or.mpr ⟨hor, not_or.mpr ⟨hand, hnot⟩⟩
  have hvalue : fieldValue (.obj [("notIn", .arr [])]) = .operators [("notIn", .arr [])] := rfl
  have hops : definedOperators [("notIn", .arr [])] = [(.notIn, .arr [])] := rfl
  have haccepted : entryAccepted d (key, .obj [("notIn", .arr [])]) := by
    refine ⟨⟨[[.atom (.const true)]], [], 0⟩, ?_⟩
    unfold buildField
    rw [if_neg hlogical, hvalue]
    dsimp only
    rw [hcolumn]
    rfl
  have hcond : fieldConditions none key (.obj [("notIn", .arr [])]) = [.const true] := by
    unfold fieldConditions
    rw [if_neg hlogical, hvalue]
    dsimp only
    rw [hops]
    rfl
  rw [entrySelects_single columns engine d row haccepted hcond]
  exact ⟨rfl, rfl⟩

/-- A user can replace a condition by one that every row satisfies. -/
theorem neutral_selects (columns : List String) (engine : Engine) (d : Dialect) (row : SqlRow)
    {key : String} (h : readableKey d key = true) :
    selects engine d columns (only key (neutral key)) row := by
  rw [selects_only_iff]
  unfold keySelects neutral
  by_cases hor : key = "OR"
  · rw [if_pos hor, if_pos hor]
    have hentry : entrySelects columns engine d row ("id", .obj [("notIn", .arr [])]) :=
      @entrySelects_notIn columns engine d row "id" ⟨"id", []⟩ (by decide) (by decide) (by decide)
        rfl
    have hoperands : toOperands (.arr [.obj [("id", .obj [("notIn", .arr [])])]])
        = .ok (.value [fieldsOnly [("id", .obj [("notIn", .arr [])])]]) := by
      rw [toOperands, toFilters, toFilters, toFilter, toParts, toParts]
      rfl
    refine ⟨_, hoperands, ?_, rfl, ?_⟩
    · intro e he
      have hmem : e ∈ [(("id", .obj [("notIn", .arr [])]) : String × Js)] := he
      rw [List.mem_singleton.mp hmem]
      exact ⟨hentry.1, hentry.2.1⟩
    · show Tri.or (Tri.and (Tri.and (entryValue none (sqlAtom engine row)
        ("id", .obj [("notIn", .arr [])])) .yes) (.and .yes (.and .yes .yes))) .no = .yes
      rw [hentry.2.2]
      rfl
  · rw [if_neg hor, if_neg hor]
    by_cases hand : key = "AND"
    · rw [if_pos hand, if_pos hand]
      have hoperands : toOperands (.arr []) = .ok (.value []) := by
        rw [toOperands, toFilters]
        rfl
      refine ⟨_, hoperands, fun e he => ?_, rfl, rfl⟩
      rw [allEntriesList, allEntriesAll] at he
      cases he
    · rw [if_neg hand, if_neg hand]
      by_cases hnot : key = "NOT"
      · rw [if_pos hnot, if_pos hnot]
        have hnegated : toNegated (.obj [("OR", .arr [])])
            = .ok (.value (.mk (.ofList []) (.value []) .absent .absent)) := by
          rw [toNegated, toFilter, toParts, toParts, toOperands, toFilters]
          · rfl
          · intro hundef
            cases hundef
        refine ⟨_, hnegated, fun e he => ?_, rfl, rfl⟩
        cases he
      · rw [if_neg hnot, if_neg hnot]
        have hcolumn : ∃ c, resolveColumnRef key none d = .ok c := by
          simp only [readableKey, Bool.or_eq_true, beq_iff_eq] at h
          rcases h with ((h | h) | h) | h
          · exact absurd h hor
          · exact absurd h hand
          · exact absurd h hnot
          · cases hc : resolveColumnRef key none d with
            | error msg =>
              rw [hc] at h
              cases h
            | ok c => exact ⟨c, rfl⟩
        obtain ⟨c, hc⟩ := hcolumn
        exact entrySelects_notIn columns engine d row hor hand hnot hc

/-- No condition on a key the dialect cannot read selects a row. -/
theorem not_selects_unreadable {columns : List String} {engine : Engine} {d : Dialect}
    {row : SqlRow} {key : String} (h : readableKey d key = false) (value : Js) :
    ¬ selects engine d columns (only key value) row := by
  simp only [readableKey, Bool.or_eq_false_iff, beq_eq_false_iff_ne] at h
  obtain ⟨⟨⟨hor, hand⟩, hnot⟩, hcolumn⟩ := h
  have herr : ∃ msg, resolveColumnRef key none d = .error msg := by
    cases hc : resolveColumnRef key none d with
    | error msg => exact ⟨msg, rfl⟩
    | ok c =>
      rw [hc] at hcolumn
      cases hcolumn
  -- a path in the key is refused, and so is one in the value
  have hsegments : ∀ segments, ∃ msg, resolveColumnRefFromSegments key segments none d
      = .error msg := by
    intro segments
    unfold resolveColumnRefFromSegments
    obtain ⟨msg, hmsg⟩ := herr
    unfold resolveColumnRef at hmsg
    split at hmsg
    · split_ifs at hmsg with hjson
      rw [if_pos hjson]
      exact ⟨_, rfl⟩
    · cases hmsg
  rw [selects_only_iff]
  unfold keySelects
  rw [if_neg hor, if_neg hand, if_neg hnot]
  rintro ⟨⟨built, hbuilt⟩, -, -⟩
  unfold buildField at hbuilt
  rw [if_neg (not_or.mpr ⟨hor, not_or.mpr ⟨hand, hnot⟩⟩)] at hbuilt
  obtain ⟨msg, hmsg⟩ := herr
  cases hv : fieldValue value with
  | path segments op =>
    obtain ⟨msg', hmsg'⟩ := hsegments segments
    rw [hv] at hbuilt
    dsimp only at hbuilt
    rw [hmsg'] at hbuilt
    cases hbuilt
  | null =>
    rw [hv] at hbuilt
    dsimp only at hbuilt
    rw [hmsg] at hbuilt
    cases hbuilt
  | operators operators =>
    rw [hv] at hbuilt
    dsimp only at hbuilt
    rw [hmsg] at hbuilt
    cases hbuilt
  | direct v =>
    rw [hv] at hbuilt
    dsimp only at hbuilt
    rw [hmsg] at hbuilt
    cases hbuilt

/-! ### list -/

section

variable {b : Backend} {entity : EntityDefinition} {options : CrudPipelineOptions}
  {ctx : BaseContext}

theorem adapterList_mem {table : TableDef} {query : ListQuery} {w : Record Js} {store : Store}
    {rows : List SqlRow} (hwhere : query.where_ = some w)
    (h : adapterList b table query store = .ok rows) :
    ∀ row ∈ rows, row ∈ store table.name ∧
      selects b.engine b.dialect (sqlColumns table) w row := by
  obtain ⟨cursor, -, h⟩ := bind_eq_ok h
  obtain ⟨where_, hfilter, h⟩ := bind_eq_ok h
  rw [hwhere] at hfilter
  show ∀ row ∈ rows, _
  cases hf : whereFilter w with
  | error msg =>
    rw [optionalFilter, hf] at hfilter
    cases hfilter
  | ok f =>
    rw [optionalFilter, hf] at hfilter
    cases hfilter
    intro row hrow
    obtain ⟨htable, hselects⟩ := runSelect_mem rfl rfl h row hrow
    exact ⟨htable, f, hf, hselects⟩

/-- A query without order and cursor, and with room for the whole table,
lists every selected row. -/
theorem adapterList_returns {table : TableDef} {w : Record Js} {store : Store} {row : SqlRow}
    (hrow : row ∈ store table.name)
    (hselects : selects b.engine b.dialect (sqlColumns table) w row) :
    ∃ rows, adapterList b table ⟨some w, none, some ((store table.name).length : ℚ), none⟩ store
      = .ok rows ∧ row ∈ rows := by
  obtain ⟨f, hf, hselects⟩ := hselects
  obtain ⟨rows, hrun, hmem⟩ := @runSelect_returns b table store
    { table := table.name
      columns := some (getDefaultColumns table)
      where_ := some f
      orderBy := none
      limit := some ((store table.name).length : ℚ)
      offset := none
      withCount := true
      cursor := none
      take := none
      casingOverrides := none }
    f (store table.name).length row rfl rfl rfl rfl rfl rfl rfl le_rfl hrow hselects
  refine ⟨rows, ?_, hmem⟩
  unfold adapterList optionalFilter
  dsimp only
  rw [hf]
  exact hrun

/-- The rows `list` returns are selected by what the user's filter cannot
replace. -/
theorem list_reachable {opts : ListOptions} {store : Store} {rows : List SqlRow}
    (h : list b entity options ctx opts store = .ok rows) :
    ∀ row ∈ rows, Reachable b entity options ctx store row := by
  unfold list at h
  cases hacc : listAccess entity options ctx with
  | error message =>
    rw [hacc] at h
    cases h
  | ok u =>
    rw [hacc] at h
    obtain ⟨w, hw⟩ := listWhere_isSome entity options ctx opts.where_ store
    have hquery : (listQuery entity options ctx opts store).where_ = some w := hw
    have hrows := adapterList_mem hquery (mapError_ok h)
    intro row hrow
    obtain ⟨htable, hselects⟩ := hrows row hrow
    refine ⟨htable, ?_⟩
    rw [selects_iff_only] at hselects ⊢
    intro key value hget
    rw [fixedWhere_get?] at hget
    by_cases hset : settable b entity options key = true
    · rw [hset] at hget
      cases hget
    · rw [Bool.not_eq_true] at hset
      rw [hset] at hget
      have hfrom := listWhere_get? entity options ctx opts.where_ store key
      rw [hw, Option.getD_some] at hfrom
      by_cases hbeyond : (tenantKey entity options key || (hiddenKeys entity.table).contains key)
          = true
      · -- the filters behind the user's, or a hidden key
        rw [if_pos hbeyond] at hfrom
        exact hselects key value (hfrom.trans hget)
      · -- a key the dialect cannot read selects nothing, whoever gave it
        have hunreadable : readableKey b.dialect key = false := by
          rw [Bool.not_eq_true, Bool.or_eq_false_iff] at hbeyond
          unfold settable at hset
          rw [hbeyond.1, hbeyond.2] at hset
          simpa using hset
        have haccess := listWhere_get? entity options ctx none store key
        rw [if_neg hbeyond] at hfrom haccess
        have hgot : ((extractWhereConditions "list" entity.access ctx).getD .empty).get? key
            = some value := haccess.symm.trans hget
        rw [hgot] at hfrom
        cases huser : (opts.where_.getD .empty).get? key with
        | none =>
          rw [huser] at hfrom
          exact absurd (hselects key value hfrom) (not_selects_unreadable hunreadable value)
        | some v =>
          rw [huser] at hfrom
          exact absurd (hselects key v hfrom) (not_selects_unreadable hunreadable v)

/-- The filter of a user who replaces every condition he can. -/
def replacingWhere (b : Backend) (entity : EntityDefinition) (options : CrudPipelineOptions)
    (ctx : BaseContext) : Record Js :=
  let settableConditions :=
    (((extractWhereConditions "list" entity.access ctx).getD .empty).filter
      (settable b entity options)).keys
  .ofList (settableConditions.map fun key => (key, neutral key))

theorem replacingWhere_get? (key : String) :
    (replacingWhere b entity options ctx).get? key =
      if key ∈ (((extractWhereConditions "list" entity.access ctx).getD .empty).filter
        (settable b entity options)).keys then some (neutral key) else none := by
  unfold replacingWhere
  dsimp only
  have hnodup : (((((extractWhereConditions "list" entity.access ctx).getD .empty).filter
      (settable b entity options)).keys.map fun key => (key, neutral key)).map Prod.fst).Nodup := by
    rw [List.map_map]
    exact (List.map_id _).symm ▸ Record.nodup _
  show Record.lookup key (Record.ofList _).entries = _
  rw [entries_ofList hnodup]
  exact lookup_map_key neutral key _

/-- A row that the fixed conditions select can be listed. -/
theorem reachable_listed (hacc : listAccess entity options ctx = .ok ()) {store : Store}
    {row : SqlRow} (h : Reachable b entity options ctx store row) :
    ∃ opts rows, list b entity options ctx opts store = .ok rows ∧ row ∈ rows := by
  obtain ⟨htable, hselects⟩ := h
  let opts : ListOptions :=
    ⟨some (replacingWhere b entity options ctx), none,
      some ((store entity.table.name).length : ℚ), none⟩
  obtain ⟨w, hw⟩ := listWhere_isSome entity options ctx opts.where_ store
  have hall : selects b.engine b.dialect (sqlColumns entity.table) w row := by
    rw [selects_iff_only] at hselects ⊢
    intro key value hget
    have hfrom := listWhere_get? entity options ctx opts.where_ store key
    rw [hw, Option.getD_some, hget] at hfrom
    have hreplaced : (opts.where_.getD .empty).get? key =
        if key ∈ (((extractWhereConditions "list" entity.access ctx).getD .empty).filter
          (settable b entity options)).keys then some (neutral key) else none :=
      replacingWhere_get? key
    rw [hreplaced] at hfrom
    have hfixed : settable b entity options key = false →
        ((listWhere entity options ctx none store).getD .empty).get? key = some value →
          selects b.engine b.dialect (sqlColumns entity.table) (only key value) row := by
      intro hset hvalue
      refine hselects key value ?_
      rw [fixedWhere_get?, hset]
      exact hvalue
    by_cases hbeyond : (tenantKey entity options key || (hiddenKeys entity.table).contains key) = true
    · rw [if_pos hbeyond] at hfrom
      refine hfixed ?_ hfrom.symm
      unfold settable
      rcases Bool.or_eq_true_iff.mp hbeyond with h | h <;> rw [h] <;> simp
    · rw [if_neg hbeyond] at hfrom
      have haccess := listWhere_get? entity options ctx none store key
      rw [if_neg hbeyond] at haccess
      by_cases hset : key ∈ (((extractWhereConditions "list" entity.access ctx).getD .empty).filter
          (settable b entity options)).keys
      · -- the user's value is the one that imposes nothing
        rw [if_pos hset] at hfrom
        have hsettable : settable b entity options key = true := by
          obtain ⟨e, he, rfl⟩ := List.mem_map.mp hset
          exact (List.mem_filter.mp he).2
        have hvalue : value = neutral key := Option.some.inj hfrom
        unfold settable at hsettable
        rw [Bool.and_eq_true] at hsettable
        rw [hvalue]
        exact neutral_selects _ _ _ _ hsettable.2
      · rw [if_neg hset, Option.none_or] at hfrom
        refine hfixed ?_ (haccess.trans hfrom.symm)
        by_contra hne
        rw [Bool.not_eq_false] at hne
        refine hset (List.mem_map.mpr ⟨(key, value), List.mem_filter.mpr ⟨?_, hne⟩, rfl⟩)
        exact (mem_entries_iff _).mpr hfrom.symm
  obtain ⟨rows, hrows, hmem⟩ := adapterList_returns htable hall
  refine ⟨opts, rows, ?_, hmem⟩
  have hquery : listQuery entity options ctx opts store
      = ⟨some w, none, some ((store entity.table.name).length : ℚ), none⟩ := by
    unfold listQuery listLimit listAfter
    rw [hw]
    have hmax : max 0 ((opts.limit).getD 20) = ((store entity.table.name).length : ℚ) :=
      max_eq_right (Nat.cast_nonneg _)
    rw [hmax]
    rfl
  unfold list
  rw [hacc, hquery, hrows]
  rfl

end

/-- A request made by a user outside any tenant. -/
def requestBy (userId : String) : BaseContext := ⟨some userId, none, none, []⟩

/-- A database without JSON cursors that fills nothing in. -/
def plainBackend : Backend where
  engine := scalarEngine
  dialect := postgresDialect
  parseCursor _ := none

def noOptions : CrudPipelineOptions := ⟨none, none, none, none, none⟩

/-- Articles of which a user may list his own. -/
def ownArticles : EntityDefinition where
  name := "articles"
  table := articles.table
  access := .ofList
    [("list", .rule (.where_ (only "ownerId" (.obj [("__marker", .str "user.id")]))))]
  tenantScoped := false
  tenantColumn := none
  beforeCreate := none
  beforeUpdate := none

/-- An article of the user `u2`. -/
def othersArticle : SqlRow := fun column => .str (if column = "owner_id" then "u2" else "a1")

end Vertz.Proofs
