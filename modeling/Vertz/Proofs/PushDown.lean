import Vertz.Proofs.Selects

/-!
# `Vertz.Proofs.PushDown`: pushing access conditions into the query
-/

namespace Vertz.Proofs

open Vertz.Lib
open Vertz.Db
open Vertz.Db.Sql
open Vertz.Spec
open Vertz.Server.Entity List

/-! ### Rows in memory -/

theorem lookup_map_key {α : Type} (f : String → α) (k : String) (ks : List String) :
    Record.lookup k (ks.map fun key => (key, f key)) = if k ∈ ks then some (f k) else none := by
  induction ks with
  | nil => rfl
  | cons j ks ih =>
    rw [map_cons, Record.lookup]
    by_cases hj : j = k
    · rw [if_pos hj, if_pos (by rw [hj]; exact mem_cons_self), hj]
    · have hne : ¬ k = j := fun h => hj h.symm
      rw [if_neg hj, ih]
      simp only [mem_cons, hne, false_or]

/-- A row in memory has the value of every column under its key. -/
theorem record_get? (t : EntityTable) (row : SqlRow) (key : String) :
    (t.record row).get? key =
      if key ∈ t.table.columns.keys then some (row (camelToSnake key none)) else none := by
  have hkeys : (getColumnNames t.table).map
        (fun key => (snakeToCamel key none, row (camelToSnake key none)))
      = t.table.columns.keys.map fun key => (key, row (camelToSnake key none)) := by
    refine map_congr_left fun k hk => ?_
    rw [t.camel k hk]
  have hnodup : ((t.table.columns.keys.map fun key =>
      (key, row (camelToSnake key none))).map Prod.fst).Nodup := by
    rw [map_map]
    exact (map_id _).symm ▸ t.table.columns.nodup
  show Record.lookup key (Record.ofList _).entries = _
  rw [hkeys, Record.entries_ofList hnodup]
  exact lookup_map_key (fun k => row (camelToSnake k none)) key _

theorem rowField_record (t : EntityTable) (row : SqlRow) (key : String) :
    rowField (t.record row) key =
      if key ∈ t.table.columns.keys then row (camelToSnake key none) else .undefined := by
  unfold rowField
  rw [record_get?]
  split <;> rfl

/-! ### A rule and its conditions -/

section

variable (operation : String) (ctx : BaseContext) (row : Record Js)
  (options : EnforceAccessOptions)

/-- Every condition holds in memory. -/
def holdInMemory (conditions : List (String × Js)) : Prop :=
  ∀ e ∈ conditions, Js.strictEq (rowField row e.1) e.2 = true

theorem holdInMemory_append (es fs : List (String × Js)) :
    holdInMemory row (es ++ fs) ↔ holdInMemory row es ∧ holdInMemory row fs := by
  unfold holdInMemory
  simp only [mem_append, or_imp, forall_and]

theorem holdInMemory_nil : holdInMemory row [] := fun _ h => absurd h not_mem_nil

theorem evaluateConditions_iff (es : List (String × Js)) :
    evaluateConditions operation ctx row es = .ok () ↔
      holdInMemory row (es.map fun e => (e.1, resolveCondition ctx e.2)) := by
  induction es with
  | nil => exact ⟨fun _ => holdInMemory_nil row, fun _ => rfl⟩
  | cons e es ih =>
    obtain ⟨key, expected⟩ := e
    rw [evaluateConditions, map_cons]
    unfold holdInMemory
    rw [forall_mem_cons]
    cases h : Js.strictEq (rowField row key) (resolveCondition ctx expected) with
    | true => exact ih.trans ⟨fun hs => ⟨rfl, hs⟩, fun hs => hs.2⟩
    | false =>
      constructor
      · intro hdeny
        cases hdeny
      · rintro ⟨htrue, -⟩
        cases htrue

theorem evaluateAll_cons_iff (sub : AccessRule) (rest : List AccessRule) :
    evaluateAll operation ctx row options (sub :: rest) = .ok () ↔
      evaluateRule operation ctx row options sub = .ok () ∧
        evaluateAll operation ctx row options rest = .ok () := by
  rw [evaluateAll]
  cases evaluateRule operation ctx row options sub with
  | error e =>
    constructor
    · intro h
      cases h
    · rintro ⟨h, -⟩
      cases h
  | ok u => exact ⟨fun h => ⟨rfl, h⟩, fun h => h.2⟩

theorem evaluateAllSkipWhere_cons_iff (sub : AccessRule) (rest : List AccessRule) :
    evaluateAllSkipWhere operation ctx row options (sub :: rest) = .ok () ↔
      evaluateRuleSkipWhere operation ctx row options sub = .ok () ∧
        evaluateAllSkipWhere operation ctx row options rest = .ok () := by
  rw [evaluateAllSkipWhere]
  cases evaluateRuleSkipWhere operation ctx row options sub with
  | error e =>
    constructor
    · intro h
      cases h
    · rintro ⟨h, -⟩
      cases h
  | ok u => exact ⟨fun h => ⟨rfl, h⟩, fun h => h.2⟩

mutual

/-- A rule allows a row exactly when its conditions hold and its
evaluation without them passes. -/
theorem evaluateRule_iff : (rule : AccessRule) →
    (evaluateRule operation ctx row options rule = .ok () ↔
      holdInMemory row (conjoined ctx rule) ∧
        evaluateRuleSkipWhere operation ctx row options rule = .ok ())
  | .where_ conditions => by
      rw [evaluateRule, evaluateRuleSkipWhere, conjoined, evaluateConditions_iff]
      exact ⟨fun h => ⟨h, rfl⟩, fun h => h.1⟩
  | .all rules => by
      rw [evaluateRule, evaluateRuleSkipWhere, conjoined]
      exact evaluateAll_iff rules
  | .any _ => ⟨fun h => ⟨holdInMemory_nil row, h⟩, fun h => h.2⟩
  | .isPublic => ⟨fun h => ⟨holdInMemory_nil row, h⟩, fun h => h.2⟩
  | .authenticated => ⟨fun h => ⟨holdInMemory_nil row, h⟩, fun h => h.2⟩
  | .role _ => ⟨fun h => ⟨holdInMemory_nil row, h⟩, fun h => h.2⟩
  | .entitlement _ => ⟨fun h => ⟨holdInMemory_nil row, h⟩, fun h => h.2⟩
  | .fva _ => ⟨fun h => ⟨holdInMemory_nil row, h⟩, fun h => h.2⟩
  | .callback _ => ⟨fun h => ⟨holdInMemory_nil row, h⟩, fun h => h.2⟩

theorem evaluateAll_iff : (rules : List AccessRule) →
    (evaluateAll operation ctx row options rules = .ok () ↔
      holdInMemory row (conjoinedAll ctx rules) ∧
        evaluateAllSkipWhere operation ctx row options rules = .ok ())
  | [] => by
      rw [evaluateAll, evaluateAllSkipWhere, conjoinedAll]
      exact ⟨fun _ => ⟨holdInMemory_nil row, rfl⟩, fun _ => rfl⟩
  | sub :: rest => by
      rw [evaluateAll_cons_iff, evaluateAllSkipWhere_cons_iff, conjoinedAll, holdInMemory_append,
        evaluateRule_iff sub, evaluateAll_iff rest]
      exact and_and_and_comm

end

theorem forall_mem_only (rule : AccessRule) :
    evaluateRule operation ctx row options rule = .ok () ↔
      ∀ sub ∈ [rule], evaluateRule operation ctx row options sub = .ok () := by
  refine ⟨fun h sub hsub => ?_, fun h => h rule mem_cons_self⟩
  rw [mem_singleton.mp hsub]
  exact h

mutual

theorem evaluateRuleSkipWhere_iff : (rule : AccessRule) →
    (evaluateRuleSkipWhere operation ctx row options rule = .ok () ↔
      ∀ sub ∈ remaining rule, evaluateRule operation ctx row options sub = .ok ())
  | .where_ conditions => by
      rw [evaluateRuleSkipWhere, remaining]
      exact ⟨fun _ _ h => absurd h not_mem_nil, fun _ => rfl⟩
  | .all rules => by
      rw [evaluateRuleSkipWhere, remaining]
      exact evaluateAllSkipWhere_iff rules
  | .any rules => forall_mem_only operation ctx row options (.any rules)
  | .isPublic => forall_mem_only operation ctx row options .isPublic
  | .authenticated => forall_mem_only operation ctx row options .authenticated
  | .role roles => forall_mem_only operation ctx row options (.role roles)
  | .entitlement name => forall_mem_only operation ctx row options (.entitlement name)
  | .fva maxAge => forall_mem_only operation ctx row options (.fva maxAge)
  | .callback allow => forall_mem_only operation ctx row options (.callback allow)

theorem evaluateAllSkipWhere_iff : (rules : List AccessRule) →
    (evaluateAllSkipWhere operation ctx row options rules = .ok () ↔
      ∀ sub ∈ remainingAll rules, evaluateRule operation ctx row options sub = .ok ())
  | [] => by
      rw [evaluateAllSkipWhere, remainingAll]
      exact ⟨fun _ _ h => absurd h not_mem_nil, fun _ => rfl⟩
  | sub :: rest => by
      rw [evaluateAllSkipWhere_cons_iff, remainingAll, evaluateRuleSkipWhere_iff sub,
        evaluateAllSkipWhere_iff rest]
      simp only [mem_append, or_imp, forall_and]

end

end

/-! ### What is pushed -/

mutual

/-- A pushed key has the value of the last condition on it. -/
theorem extract_get? (ctx : BaseContext) (key : String) : (rule : AccessRule) →
    ((extractFromDescriptor ctx rule).getD .empty).get? key
      = Record.lookupLast key (conjoined ctx rule)
  | .where_ conditions => by
      have hnodup : ((conditions.entries.map fun e =>
          (e.1, resolveCondition ctx e.2)).map Prod.fst).Nodup := by
        rw [map_map]
        exact conditions.nodup
      rw [extractFromDescriptor, conjoined, Option.getD_some, Record.lookupLast_of_nodup hnodup]
      rfl
  | .all rules => by
      rw [extractFromDescriptor, conjoined, extractAll_get? ctx key rules none]
      exact Option.or_none
  | .any _ => rfl
  | .isPublic => rfl
  | .authenticated => rfl
  | .role _ => rfl
  | .entitlement _ => rfl
  | .fva _ => rfl
  | .callback _ => rfl

theorem extractAll_get? (ctx : BaseContext) (key : String) : (rules : List AccessRule) →
    (merged : Option (Record Js)) →
    ((extractAll ctx merged rules).getD .empty).get? key
      = (Record.lookupLast key (conjoinedAll ctx rules)).or ((merged.getD .empty).get? key)
  | [], merged => by
      rw [extractAll, conjoinedAll]
      rfl
  | sub :: rest, merged => by
      have hsub := extract_get? ctx key sub
      rw [extractAll, conjoinedAll, Record.lookupLast_append, ← hsub, Option.or_assoc]
      cases extractFromDescriptor ctx sub with
      | none => exact extractAll_get? ctx key rest merged
      | some extracted =>
        show ((extractAll ctx (some ((merged.getD .empty).spread extracted)) rest).getD
          .empty).get? key = _
        rw [extractAll_get? ctx key rest, Option.getD_some, Record.get?_spread]
        rfl

end

theorem rule_get? {r : AccessRequest} {rule : AccessRule} (hrule : r.rule = some rule) :
    r.rules.get? r.operation = some (.rule rule) := by
  unfold AccessRequest.rule at hrule
  cases hop : r.rules.get? r.operation with
  | none =>
    rw [hop] at hrule
    cases hrule
  | some op =>
    rw [hop] at hrule
    cases op with
    | disabled => cases hrule
    | rule rule' =>
      cases hrule
      rfl

theorem pushed_get? (r : AccessRequest) {rule : AccessRule} (hrule : r.rule = some rule)
    (key : String) : r.pushed.get? key = Record.lookupLast key (conjoined r.ctx rule) := by
  unfold AccessRequest.pushed extractWhereConditions
  rw [rule_get? hrule]
  exact extract_get? r.ctx key rule

/-! ### One condition -/

variable (engine : Engine) (d : Dialect) (t : EntityTable)

/-- The condition selects the row. -/
def conditionSelects (row : SqlRow) (e : String × Js) : Prop :=
  selects engine d (sqlColumns t.table) (only e.1 e.2) row

theorem sqlColumns_contains {t : EntityTable} {key : String} (h : key ∈ t.table.columns.keys) :
    (sqlColumns t.table).contains (camelToSnake key none) = true := by
  rw [contains_iff_mem]
  exact mem_map.mpr ⟨key, h, rfl⟩

theorem comparedAlike_iff {e : String × Js} (h : comparedAlike t.table e = true)
    (row : StoredRow) : conditionSelects engine d t row.cells e ↔
      Js.strictEq (rowField (t.record row.cells) e.1) e.2 = true := by
  obtain ⟨key, value⟩ := e
  unfold conditionSelects
  rw [rowField_record]
  by_cases hundef : value = .undefined
  · subst hundef
    have hlogical : key = "OR" ∨ key = "AND" ∨ key = "NOT" := by
      simpa [comparedAlike, or_assoc] using h
    have hnot : key ∉ t.table.columns.keys := by
      intro hmem
      obtain ⟨hor, hand, hn⟩ := plainKey_not_logical (t.plain key hmem)
      rcases hlogical with hk | hk | hk
      · exact hor hk
      · exact hand hk
      · exact hn hk
    rw [if_neg hnot]
    exact ⟨fun _ => rfl, fun _ => selects_logical_undefined _ engine d _ hlogical⟩
  · have hboth : key ∈ t.table.columns.keys ∧ comparable value = true := by
      cases value <;> simp_all [comparedAlike]
    obtain ⟨hkey, hcomparable⟩ := hboth
    have hplain := t.plain key hkey
    rw [if_pos hkey]
    by_cases hnull : value = .null
    · subst hnull
      rw [selects_only_null _ engine d _ hplain]
      have hdefined := row.defined (camelToSnake key none)
      refine (and_iff_right (sqlColumns_contains hkey)).trans ?_
      cases hcell : row.cells (camelToSnake key none) <;>
        simp_all [Js.isNullish, Js.strictEq]
    · have hdirect : fieldValue value = .direct value := by
        cases value <;> simp_all [comparable] <;> rfl
      have hnonnull : value.isNullish = false := by
        cases value <;> simp_all [comparable, Js.isNullish]
      have hprimitive : value.isPrimitive = true := by
        cases value <;> simp_all [comparable, Js.isPrimitive]
      rw [selects_only_direct _ engine d _ hplain hdirect hnonnull, Js.strictEq_iff hprimitive]
      exact and_iff_right (sqlColumns_contains hkey)

/-- A condition that is not compared alike fails every row in one of the
two readings. -/
theorem not_comparedAlike {e : String × Js} (h : comparedAlike t.table e = false) :
    (∀ row : StoredRow, ¬ conditionSelects engine d t row.cells e) ∨
      ∀ row : StoredRow, Js.strictEq (rowField (t.record row.cells) e.1) e.2 = false := by
  obtain ⟨key, value⟩ := e
  by_cases hkey : key ∈ t.table.columns.keys
  · -- `===` never holds between a stored value and a value of this kind
    refine .inr fun row => ?_
    rw [rowField_record, if_pos hkey]
    have hdefined := row.defined (camelToSnake key none)
    cases value with
    | undefined =>
      cases hcell : row.cells (camelToSnake key none) <;> simp_all [Js.strictEq]
    | arr vs => cases row.cells (camelToSnake key none) <;> rfl
    | obj es => cases row.cells (camelToSnake key none) <;> rfl
    | _ => simp_all [comparedAlike, comparable]
  · by_cases hundef : value = .undefined
    · subst hundef
      refine .inl fun row => ?_
      simp only [comparedAlike, Bool.or_eq_false_iff, beq_eq_false_iff_ne] at h
      exact not_selects_undefined _ engine d _ h.1.1 h.1.2 h.2
    · refine .inr fun row => ?_
      rw [rowField_record, if_neg hkey]
      cases value <;> simp_all [Js.strictEq]

/-! ### Pushing down and evaluating -/

variable {engine d t}

section

variable {r : AccessRequest} {rule : AccessRule} (hrule : r.rule = some rule)

include hrule

theorem evaluated_iff (row : SqlRow) :
    Evaluated t r row ↔ holdInMemory (t.record row) (conjoined r.ctx rule) ∧
      ∀ sub ∈ remaining rule,
        evaluateRule r.operation r.ctx (t.record row) r.options sub = .ok () := by
  rw [← evaluateRuleSkipWhere_iff, ← evaluateRule_iff]
  unfold Evaluated enforceAccess
  rw [rule_get? hrule]
  exact Iff.rfl

theorem pushedDown_iff (row : SqlRow) : PushedDown engine d t r row ↔
      selects engine d (sqlColumns t.table) r.pushed row ∧
        ∀ sub ∈ remaining rule,
          evaluateRule r.operation r.ctx (t.record row) r.options sub = .ok () := by
  rw [← evaluateRuleSkipWhere_iff]
  unfold PushedDown enforceAccess
  rw [rule_get? hrule]
  exact Iff.rfl

theorem pushed_consistent
    (hcons : ∀ e ∈ conjoined r.ctx rule, ∀ e' ∈ conjoined r.ctx rule, e.1 = e'.1 → e.2 = e'.2)
    (row : SqlRow) : selects engine d (sqlColumns t.table) r.pushed row ↔
      ∀ e ∈ conjoined r.ctx rule, conditionSelects engine d t row e := by
  rw [selects_iff_only]
  constructor
  · intro h e he
    refine h e.1 e.2 ?_
    rw [pushed_get? r hrule]
    cases hlast : Record.lookupLast e.1 (conjoined r.ctx rule) with
    | none =>
      have hsome : (Record.lookup e.1 (conjoined r.ctx rule).reverse).isSome := by
        rw [Record.lookup_isSome_iff, map_reverse, mem_reverse]
        exact mem_map.mpr ⟨e, he, rfl⟩
      have hnone : Record.lookup e.1 (conjoined r.ctx rule).reverse = none := hlast
      rw [hnone] at hsome
      cases hsome
    | some v => exact congrArg some (hcons (e.1, v) (Record.mem_of_lookupLast hlast) e he rfl)
  · intro h key value hget
    rw [pushed_get? r hrule] at hget
    exact h (key, value) (Record.mem_of_lookupLast hget)

/-- Conditions that disagree fail every row in one of the two readings. -/
theorem not_agreeing (h : ¬ Agreeing t.table (conjoined r.ctx rule)) :
    (∀ row : StoredRow, ¬ selects engine d (sqlColumns t.table) r.pushed row.cells) ∨
      ∀ row : StoredRow, ¬ holdInMemory (t.record row.cells) (conjoined r.ctx rule) := by
  by_cases hcons : ∀ e ∈ conjoined r.ctx rule, ∀ e' ∈ conjoined r.ctx rule, e.1 = e'.1 → e.2 = e'.2
  · have hbad : ∃ e ∈ conjoined r.ctx rule, comparedAlike t.table e = false := by
      by_contra hall
      refine h ⟨fun e he => ?_, hcons⟩
      by_contra hne
      exact hall ⟨e, he, by rwa [Bool.not_eq_true] at hne⟩
    obtain ⟨e, he, hbad⟩ := hbad
    rcases @not_comparedAlike engine d t e hbad with hnever | hnever
    · refine .inl fun row hsel => hnever row ?_
      exact (pushed_consistent hrule hcons row.cells).mp hsel e he
    · refine .inr fun row hmem => ?_
      have htrue := hmem e he
      rw [hnever row] at htrue
      cases htrue
  · -- one column cannot be two values at once
    refine .inr fun row hmem => hcons fun e he e' he' hkey => ?_
    have h₁ := Js.eq_of_strictEq (hmem e he)
    have h₂ := Js.eq_of_strictEq (hmem e' he')
    rw [hkey] at h₁
    exact h₁.symm.trans h₂

end

/-- Articles, told apart by status and owner. -/
def articles : EntityTable where
  table :=
    { name := "articles"
      columns := .ofList [("id", .plain "text"), ("status", .plain "text"),
        ("ownerId", .plain "text")] }
  plain := by decide
  camel := by decide
  distinct := by decide

def publishedArticle : StoredRow where
  cells column := .str (if column = "status" then "published" else "a1")
  defined _ := by intro h; cases h

/-- Two `where` rules on one column under an `all`. -/
def conflictingRule : AccessRequest where
  operation := "list"
  rules := .ofList [("list", .rule (.all [.where_ (only "status" (.str "draft")),
    .where_ (only "status" (.str "published"))]))]
  ctx := ⟨none, none, none, []⟩
  options := ⟨none, none⟩

end Vertz.Proofs
