import Vertz.Proofs.ListAccess

/-!
# `Vertz.Proofs.HiddenColumns`: hidden columns in the query of `list`
-/

namespace Vertz.Proofs

open Vertz.Lib
open Vertz.Db
open Vertz.Spec
open Vertz.Server.Entity List

/-! ### The tree -/

theorem treeEntries_cons (key : String) (value : Js) (es : List (String × Js)) :
    treeEntries ((key, value) :: es) = treeEntries [(key, value)] ++ treeEntries es := by
  simp only [treeEntries, append_nil]

theorem mem_treeEntries (w : Record Js) (e : String × Js) : e ∈ treeEntries w.entries ↔
    ∃ key value, w.get? key = some value ∧ e ∈ treeEntries [(key, value)] := by
  have hlist : ∀ es : List (String × Js), e ∈ treeEntries es ↔
      ∃ f ∈ es, e ∈ treeEntries [f] := by
    intro es
    induction es with
    | nil =>
      rw [treeEntries]
      exact ⟨fun h => absurd h not_mem_nil, fun ⟨f, hf, _⟩ => absurd hf not_mem_nil⟩
    | cons f es ih =>
      obtain ⟨key, value⟩ := f
      rw [treeEntries_cons, mem_append, ih, exists_mem_cons_iff]
  rw [hlist]
  constructor
  · rintro ⟨⟨key, value⟩, hmem, he⟩
    exact ⟨key, value, w.mem_entries_iff.mp hmem, he⟩
  · rintro ⟨key, value, hget, he⟩
    exact ⟨(key, value), w.mem_entries_iff.mpr hget, he⟩

/-! ### Validation -/

theorem checkFields_ok_iff {refused : String → Bool} {message : String → String}
    (keys : List String) : checkFields refused message keys = .ok () ↔
      ∀ key ∈ keys, refused key = false := by
  induction keys with
  | nil => exact ⟨fun _ key h => absurd h not_mem_nil, fun _ => rfl⟩
  | cons key keys ih =>
    rw [checkFields, forall_mem_cons]
    cases h : refused key with
    | true =>
      rw [if_pos rfl]
      constructor
      · intro h
        cases h
      · rintro ⟨h, -⟩
        cases h
    | false =>
      rw [if_neg Bool.false_ne_true, ih]
      exact ⟨fun hall => ⟨rfl, hall⟩, fun hall => hall.2⟩

theorem optionKeys_of_get? {α : Type} {r : Option (Record α)} {key : String} {value : α}
    (h : (r.getD .empty).get? key = some value) : key ∈ optionKeys r := by
  cases r with
  | none => cases h
  | some r =>
    have hsome : r.get? key = some value := h
    show key ∈ r.keys
    rw [Record.mem_keys_iff, hsome]
    rfl

section

variable {requested opts : VertzQLOptions} {table : TableDef}
  {relations : Option (Record RelationConfig)} {expose : Option ExposeValidationConfig}
  {evaluated : Option EvaluatedExpose}

/-- The fields a request may filter by, when the entity restricts them. -/
def filterable (expose : Option ExposeValidationConfig) (evaluated : Option EvaluatedExpose) :
    Option (List String) :=
  allowedFields (evaluated.map EvaluatedExpose.allowedWhereFields)
    (expose.map fun c => extractAllowKeys c.allowWhere)

def sortable (expose : Option ExposeValidationConfig) (evaluated : Option EvaluatedExpose) :
    Option (List String) :=
  allowedFields (evaluated.map EvaluatedExpose.allowedOrderByFields)
    (expose.map fun c => extractAllowKeys c.allowOrderBy)

/-- A key that passed is not hidden. -/
theorem visible_of_not_refused {allowed : Option (List String)} {key : String}
    (h : fieldRefused (hiddenKeys table) allowed key = false) : key ∉ hiddenKeys table := by
  intro hmem
  unfold fieldRefused at h
  rw [contains_iff_mem.mpr hmem] at h
  cases h

/-- Validation looks at the keys of the objects, and only at them. -/
theorem validate_fields
    (h : validateVertzQL requested table relations expose evaluated = .ok opts) :
    opts.listOptions = requested.listOptions ∧
      (∀ key ∈ optionKeys requested.where_,
        fieldRefused (hiddenKeys table) (filterable expose evaluated) key = false) ∧
      ∀ key ∈ optionKeys requested.orderBy,
        fieldRefused (hiddenKeys table) (sortable expose evaluated) key = false := by
  obtain ⟨_, _, h⟩ := bind_eq_ok h
  obtain ⟨_, hwhere, h⟩ := bind_eq_ok h
  obtain ⟨_, horder, h⟩ := bind_eq_ok h
  obtain ⟨_, _, h⟩ := bind_eq_ok h
  refine ⟨?_, (checkFields_ok_iff _).mp hwhere, (checkFields_ok_iff _).mp horder⟩
  split at h
  · obtain ⟨entries, -, rfl⟩ := map_eq_ok h
    rfl
  · cases h
    rfl

end

/-! ### list -/

section

variable {entity : EntityDefinition} {options : CrudPipelineOptions} {ctx : BaseContext}

theorem tenantFilters_key {store : Store} {key : String} {value : Js}
    (h : (Spec.tenantFilters entity options ctx store).get? key = some value) :
    tenantKey entity options key = true := by
  by_contra hne
  have hfrom := tenantFilters_get? entity options ctx .empty store key
  rw [if_neg hne] at hfrom
  have hnone : (Spec.tenantFilters entity options ctx store).get? key = none := hfrom
  rw [hnone] at h
  cases h

/-- Which filter a key of the where object comes from, when the user's
has no hidden key. -/
theorem listWhere_source {rawWhere : Option (Record Js)}
    (hvisible : ∀ key value, (rawWhere.getD .empty).get? key = some value →
      key ∉ hiddenKeys entity.table)
    (store : Store) (key : String) :
    ((listWhere entity options ctx rawWhere store).getD .empty).get? key =
      if tenantKey entity options key then (Spec.tenantFilters entity options ctx store).get? key
      else ((rawWhere.getD .empty).get? key).or
        (((extractWhereConditions "list" entity.access ctx).getD .empty).get? key) := by
  unfold listWhere
  rw [tenantFilters_get?, Record.get?_spread, cleanWhere_get?]
  congr 1
  split_ifs with hhidden
  · -- a hidden key is not the user's
    have hnone : (rawWhere.getD .empty).get? key = none := by
      cases hget : (rawWhere.getD .empty).get? key with
      | none => rfl
      | some value => exact absurd (contains_iff_mem.mp hhidden) (hvisible key value hget)
    rw [hnone]
  · rfl

theorem quiet_iff {table : TableDef} {key : String} (hvisible : key ∉ hiddenKeys table)
    (value : Js) : Quiet table key value ↔ ¬ Reveals table key value := by
  unfold Quiet Reveals
  split_ifs with hlogical
  · exact ⟨fun h ⟨e, he, hmem⟩ => h e he hmem, fun h e he hmem => h ⟨e, he, hmem⟩⟩
  · have hsingle : treeEntries [(key, value)] = [(key, value)] := by
      rw [not_or, not_or] at hlogical
      rw [treeEntries, treeEntries, if_neg (not_or.mpr ⟨hlogical.1, hlogical.2.1⟩),
        if_neg hlogical.2.2, append_nil]
    rw [hsingle]
    unfold Respelled
    exact ⟨fun h hr => h _ (mem_singleton_self _) hr.2,
      fun h e he hmem => h ⟨hvisible, (mem_singleton.mp he) ▸ hmem⟩⟩

end

/-- Accounts with a hidden password hash, that everybody may list. -/
def accounts : EntityDefinition where
  name := "accounts"
  table :=
    { name := "accounts"
      columns := .ofList [("id", .plain "text"), ("name", .plain "text"),
        ("passwordHash", { ColumnMetadata.plain "text" with annotations := ["hidden"] })] }
  access := .ofList [("list", .rule .isPublic)]
  tenantScoped := false
  tenantColumn := none
  beforeCreate := none
  beforeUpdate := none

def filterRequest (where_ : Record Js) : VertzQLOptions :=
  ⟨some where_, none, none, none, none, none, none⟩

/-- The first letter of a password hash, asked for under `OR`. -/
def hashRequest : VertzQLOptions :=
  filterRequest (only "OR" (.arr [.obj [("passwordHash", .obj [("startsWith", .str "a")])]]))

end Vertz.Proofs
