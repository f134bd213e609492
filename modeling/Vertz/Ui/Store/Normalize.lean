import Vertz.Ui.Store.Merge

/-!
# `Vertz.Ui.Store.Normalize`: splitting a nested payload into entities

`packages/ui/src/store/normalize.ts` and `relation-registry.ts`.
`normalizeEntity` replaces every nested object of a relation field by
its id and collects the objects, by entity type, for the store to merge.
The walk carries the keys it is visiting; an object whose key is among
them is replaced by its id and not collected.

The source recurses on the payload. Here the recursion is on a depth
bound, which `normalizeEntity` sets to the payload's own depth;
`walk_depth` says that a larger bound changes nothing.

The theorems:

* `normalizeEntity_json`: a JSON payload gives JSON entities.
* `normalizeEntity_bare`: what comes out holds bare ids in its relation
  fields.
* `normalizeEntity_of_bare`: an entity that holds bare ids normalizes to
  itself, with nothing collected.
-/

namespace Vertz.Ui.Store

open Vertz.Lib List

inductive RelationType where
  | one
  | many
  deriving DecidableEq, Repr

structure RelationFieldDef where
  type : RelationType
  entity : String

/-- The relation fields of an entity type. -/
abbrev RelationSchema := Record RelationFieldDef

/-- `getRelationSchema`: the registered schemas. -/
abbrev Relations := String → Option RelationSchema

/-- Entities collected by type. -/
abbrev Extracted := Record (List Entity)

structure NormalizedResult where
  normalized : Entity
  extracted : Extracted

/-- `entity.id as string`. The types of the store's API make it a
string. -/
def idOf (entity : Entity) : String :=
  match field entity "id" with
  | .str id => id
  | _ => "undefined"

theorem idOf_same {a b : Entity} (h : a.Same b) : idOf a = idOf b := by
  rw [idOf, idOf, field, field, h "id"]

/-- The key of an entity in the set of the entities being visited. -/
def visitKey (entityType id : String) : String := entityType ++ "/" ++ id

/-- A nested object with a string id, and that id. -/
def nestedEntity : Js → Option (Entity × String)
  | .obj entries =>
    match field (Record.ofList entries) "id" with
    | .str id => some (Record.ofList entries, id)
    | _ => none
  | _ => none

/-- An element of a 'many' relation as it is stored. -/
def bareRef (value : Js) : Js :=
  match nestedEntity value with
  | some (_, id) => .str id
  | none => value

/-- `extracted.get(type) ?? []`, extended by the items. -/
def pushAll (extracted : Extracted) (type : String) (items : List Entity) : Extracted :=
  extracted.insert type ((extracted.get? type).getD [] ++ items)

/-- What a walk over a payload carries: the result so far and the keys
being visited. -/
structure Walk where
  normalized : Entity
  extracted : Extracted
  visit : List String

/-- Collect a nested object and what it collects itself, unless it is
being visited already. `nest` is the walk over the nested object. -/
def visitNested (nest : String → Entity → List String → Walk) (entity : String)
    (acc : Walk) (value : Js) : Walk :=
  match nestedEntity value with
  | none => acc
  | some (nested, id) =>
    if visitKey entity id ∈ acc.visit then acc
    else
      let nestedResult := nest entity nested acc.visit
      { acc with
        extracted := nestedResult.extracted.entries.foldl (fun ex e => pushAll ex e.1 e.2)
          (pushAll acc.extracted entity [nestedResult.normalized])
        visit := nestedResult.visit }

/-- One relation field of the payload. -/
def normalizeField (nest : String → Entity → List String → Walk) (data : Entity)
    (acc : Walk) (e : String × RelationFieldDef) : Walk :=
  let (name, rel) := e
  let value := field data name
  match rel.type with
  | .one =>
    match nestedEntity value with
    | none => acc
    | some (_, id) =>
      let visited := visitNested nest rel.entity acc value
      { visited with normalized := visited.normalized.insert name (.str id) }
  | .many =>
    match value with
    | .arr elements =>
      let visited := elements.foldl (visitNested nest rel.entity) acc
      { visited with normalized := visited.normalized.insert name (.arr (elements.map bareRef)) }
    | _ => acc

/-- The walk over a payload. -/
def walk (relations : Relations) : ℕ → String → Entity → List String → Walk
  | 0, _, data, visit => { normalized := data, extracted := Record.empty, visit := visit }
  | fuel + 1, entityType, data, visit =>
    match relations entityType with
    | none => { normalized := data, extracted := Record.empty, visit := visit }
    | some schema =>
      if visitKey entityType (idOf data) ∈ visit then
        { normalized := data, extracted := Record.empty, visit := visit }
      else
        schema.entries.foldl (normalizeField (walk relations fuel) data)
          { normalized := data
            extracted := Record.empty
            visit := visitKey entityType (idOf data) :: visit }

def normalizeEntity (relations : Relations) (entityType : String) (data : Entity) :
    NormalizedResult :=
  let result := walk relations (Js.depthEntries data.entries + 1) entityType data []
  { normalized := result.normalized, extracted := result.extracted }

/-! ### The depth bound -/

theorem depth_nestedEntity {value : Js} {nested : Entity} {id : String}
    (h : nestedEntity value = some (nested, id)) :
    Js.depthEntries nested.entries < Js.depth value := by
  cases value with
  | obj entries =>
    rw [nestedEntity] at h
    split at h
    · cases h
      exact Nat.lt_succ_of_le (Js.depthEntries_le fun e he => Record.mem_of_mem_ofList he)
    · cases h
  | _ => cases h

theorem depth_field (data : Entity) (name : String) :
    Js.depth (field data name) ≤ Js.depthEntries data.entries := by
  rw [field]
  cases hget : data.get? name with
  | none => exact Nat.zero_le _
  | some value => exact Js.depth_le_depthEntries ((data.mem_entries_iff).mpr hget)

section Nest

variable {nest nest' : String → Entity → List String → Walk}

end Nest

/-! ### What is stored in the place of a relation -/

/-- The value of a relation field as it is stored. -/
def storedValue (rel : RelationFieldDef) (value : Js) : Js :=
  match rel.type with
  | .one => bareRef value
  | .many =>
    match value with
    | .arr elements => .arr (elements.map bareRef)
    | value => value

/-- The value of a field as it is stored. -/
def storedField (schema : RelationSchema) (name : String) (value : Js) : Js :=
  match schema.get? name with
  | none => value
  | some rel => storedValue rel value

variable (nest : String → Entity → List String → Walk)

@[simp] theorem visitNested_normalized (entity : String) (acc : Walk) (value : Js) :
    (visitNested nest entity acc value).normalized = acc.normalized := by
  rw [visitNested]
  split
  · rfl
  · split <;> rfl

@[simp] theorem foldl_visitNested_normalized (entity : String) (acc : Walk) (elements : List Js) :
    (elements.foldl (visitNested nest entity) acc).normalized = acc.normalized := by
  induction elements generalizing acc with
  | nil => rfl
  | cons value rest ih => rw [foldl_cons, ih, visitNested_normalized]

theorem bareRef_of_none {value : Js} (h : nestedEntity value = none) : bareRef value = value := by
  rw [bareRef, h]

variable {data : Entity}

theorem get?_normalizeField {acc : Walk} {name : String} (rel : RelationFieldDef)
    (hacc : acc.normalized.get? name = data.get? name) (key : String) :
    (normalizeField nest data acc (name, rel)).normalized.get? key =
      if key = name then (data.get? name).map (storedValue rel)
      else acc.normalized.get? key := by
  obtain ⟨type, entity⟩ := rel
  by_cases hkey : key = name
  · subst hkey
    rw [if_pos rfl]
    cases hget : data.get? key with
    | none =>
      have hfield : field data key = .undefined := by rw [field, hget]; rfl
      cases type <;> simp [normalizeField, hfield, nestedEntity, hacc, hget]
    | some value =>
      have hfield : field data key = value := by rw [field, hget]; rfl
      cases type with
      | one =>
        simp only [normalizeField, hfield, Option.map_some, storedValue]
        cases hnested : nestedEntity value with
        | none => simp [hacc, hget, bareRef_of_none hnested]
        | some e => simp [bareRef, hnested]
      | many =>
        cases value <;> simp [normalizeField, hfield, storedValue, hacc, hget]
  · have hne : ¬ name = key := fun h => hkey h.symm
    rw [if_neg hkey]
    cases type with
    | one =>
      rw [normalizeField]
      cases hnested : nestedEntity (field data name) with
      | none => simp
      | some e => simp [Record.get?_insert, hne]
    | many =>
      cases hvalue : field data name <;>
        simp [normalizeField, hvalue, Record.get?_insert, hne]

/-- The fields of the relations are stored; the others are kept. -/
theorem get?_normalizeFields (data : Entity) {rels : List (String × RelationFieldDef)}
    (hnodup : (rels.map Prod.fst).Nodup) {acc : Walk}
    (hacc : ∀ e ∈ rels, acc.normalized.get? e.1 = data.get? e.1) (key : String) :
    (rels.foldl (normalizeField nest data) acc).normalized.get? key =
      match Record.lookup key rels with
      | none => acc.normalized.get? key
      | some rel => (data.get? key).map (storedValue rel) := by
  induction rels generalizing acc with
  | nil => rfl
  | cons e rest ih =>
    obtain ⟨name, rel⟩ := e
    rw [map_cons, nodup_cons] at hnodup
    have hname : acc.normalized.get? name = data.get? name := hacc _ mem_cons_self
    have hstep := get?_normalizeField nest rel hname
    have hrest : ∀ e ∈ rest,
        (normalizeField nest data acc (name, rel)).normalized.get? e.1 = data.get? e.1 := by
      intro e he
      have hne : ¬ e.1 = name := fun h => hnodup.1 (mem_map.mpr ⟨e, he, h⟩)
      rw [hstep, if_neg hne]
      exact hacc e (mem_cons_of_mem _ he)
    rw [foldl_cons, ih hnodup.2 hrest]
    by_cases hkey : name = key
    · subst hkey
      have hout : Record.lookup name rest = none := by
        rw [← Option.not_isSome_iff_eq_none, Record.lookup_isSome_iff]
        exact hnodup.1
      simp [Record.lookup, hout, hstep]
    · have hne : ¬ key = name := fun h => hkey h.symm
      simp [Record.lookup, hkey, hstep, hne]

/-- A payload whose key is not being visited, under a bound above its
depth. -/
structure Fresh (fuel : ℕ) (entityType : String) (data : Entity) (visit : List String) :
    Prop where
  depth : Js.depthEntries data.entries < fuel
  key : visitKey entityType (idOf data) ∉ visit

variable {entityType : String}

/-- Each field of the payload comes out as it is stored. -/
theorem get?_walk {relations : Relations} {fuel : ℕ} {visit : List String}
    (h : Fresh fuel entityType data visit) (key : String) :
    (walk relations fuel entityType data visit).normalized.get? key =
      match relations entityType with
      | none => data.get? key
      | some schema => (data.get? key).map (storedField schema key) := by
  cases fuel with
  | zero => exact absurd h.depth (Nat.not_lt_zero _)
  | succ fuel =>
    rw [walk]
    cases relations entityType with
    | none => rfl
    | some schema =>
      simp only [if_neg h.key]
      refine (get?_normalizeFields _ data schema.nodup (fun _ _ => rfl) key).trans ?_
      show (match schema.get? key with | none => data.get? key | some rel => _) = _
      cases hrel : schema.get? key with
      | none =>
        have hid : storedField schema key = id := by
          funext value
          rw [storedField, hrel]
          rfl
        rw [hid, Option.map_id]
        rfl
      | some rel =>
        have hstored : storedField schema key = storedValue rel := by
          funext value
          rw [storedField, hrel]
        rw [hstored]

/-! ### What is collected -/

/-- Every collected entity has the property of its type. -/
def Collects (P : String → Entity → Prop) (extracted : Extracted) : Prop :=
  ∀ type items, extracted.get? type = some items → ∀ item ∈ items, P type item

section Collect

variable {P : String → Entity → Prop}

theorem collects_empty : Collects P Record.empty := fun _ _ h => by cases h

theorem Collects.pushAll {extracted : Extracted} (h : Collects P extracted) {type : String}
    {items : List Entity} (hitems : ∀ item ∈ items, P type item) :
    Collects P (pushAll extracted type items) := by
  intro type' items' hget item hitem
  rw [Store.pushAll, Record.get?_insert] at hget
  by_cases htype : type = type'
  · subst htype
    rw [if_pos rfl] at hget
    cases hget
    rcases mem_append.mp hitem with hold | hnew
    · cases hex : extracted.get? type with
      | none =>
        rw [hex] at hold
        cases hold
      | some held =>
        rw [hex] at hold
        exact h type held hex item hold
    · exact hitems item hnew
  · rw [if_neg htype] at hget
    exact h type' items' hget item hitem

theorem Collects.foldl_pushAll {extracted : Extracted} (h : Collects P extracted)
    {es : List (String × List Entity)} (hes : ∀ e ∈ es, ∀ item ∈ e.2, P e.1 item) :
    Collects P (es.foldl (fun ex e => Store.pushAll ex e.1 e.2) extracted) := by
  induction es generalizing extracted with
  | nil => exact h
  | cons e rest ih =>
    exact ih (h.pushAll (hes e mem_cons_self)) fun e' he' =>
      hes e' (mem_cons_of_mem _ he')

/-- What the walk over a nested object has to give. -/
def NestSpec (P : String → Entity → Prop) (Q : Entity → Prop) (bound : ℕ)
    (nest : String → Entity → List String → Walk) : Prop :=
  ∀ entity nested visit, Q nested → Js.depthEntries nested.entries < bound →
    visitKey entity (idOf nested) ∉ visit →
      P entity (nest entity nested visit).normalized ∧
        Collects P (nest entity nested visit).extracted

variable {Q : Entity → Prop} {nest : String → Entity → List String → Walk}

theorem idOf_nestedEntity {value : Js} {nested : Entity} {id : String}
    (h : nestedEntity value = some (nested, id)) : idOf nested = id := by
  cases value with
  | obj entries =>
    rw [nestedEntity] at h
    split at h
    · rename_i hid
      cases h
      rw [idOf, hid]
    · cases h
  | _ => cases h

theorem collects_visitNested {bound : ℕ} (hnest : NestSpec P Q bound nest) (entity : String)
    {acc : Walk} (hacc : Collects P acc.extracted) {value : Js} (hdepth : Js.depth value ≤ bound)
    (hQ : ∀ nested id, nestedEntity value = some (nested, id) → Q nested) :
    Collects P (visitNested nest entity acc value).extracted := by
  rw [visitNested]
  cases hnested : nestedEntity value with
  | none => exact hacc
  | some e =>
    obtain ⟨nested, id⟩ := e
    by_cases hvisit : visitKey entity id ∈ acc.visit
    · simp only [if_pos hvisit]
      exact hacc
    · have hspec := hnest entity nested acc.visit (hQ nested id hnested)
        (lt_of_lt_of_le (depth_nestedEntity hnested) hdepth)
        (by rw [idOf_nestedEntity hnested]; exact hvisit)
      simp only [if_neg hvisit]
      refine (hacc.pushAll ?_).foldl_pushAll fun e he => ?_
      · intro item hitem
        rw [mem_singleton.mp hitem]
        exact hspec.1
      · exact hspec.2 e.1 e.2 ((Record.mem_entries_iff _).mp he)

theorem collects_normalizeField {data : Entity}
    (hnest : NestSpec P Q (Js.depthEntries data.entries) nest) {acc : Walk}
    (hacc : Collects P acc.extracted) (e : String × RelationFieldDef)
    (hQ : ∀ nested id, nestedEntity (field data e.1) = some (nested, id) → Q nested)
    (hQs : ∀ elements, field data e.1 = .arr elements → ∀ value ∈ elements, ∀ nested id,
      nestedEntity value = some (nested, id) → Q nested) :
    Collects P (normalizeField nest data acc e).extracted := by
  obtain ⟨name, type, entity⟩ := e
  have hdepth := depth_field data name
  cases type with
  | one =>
    have hvisit := collects_visitNested hnest entity hacc hdepth hQ
    show Collects P (match nestedEntity (field data name) with | none => acc | some (_, id) => _ : Walk).extracted
    split
    · exact hacc
    · exact hvisit
  | many =>
    show Collects P (match field data name with | .arr elements => _ | _ => acc : Walk).extracted
    split
    · rename_i elements hvalue
      rw [hvalue, Js.depth] at hdepth
      show Collects P (elements.foldl (visitNested nest entity) acc).extracted
      refine List.foldlRecOn elements (motive := fun w : Walk => Collects P w.extracted) _ hacc ?_
      intro acc' hacc' value hmem
      exact collects_visitNested hnest entity hacc'
        ((Js.depth_le_depthList hmem).trans (by omega)) (hQs elements hvalue value hmem)
    · exact hacc

/-- A property that the walk's own output has, it has for everything it
collects. `Q` is what the payload has to satisfy; nested objects inherit
it. -/
theorem walk_collects {relations : Relations}
    (hQ : ∀ data name, Q data → ∀ nested id,
      nestedEntity (field data name) = some (nested, id) → Q nested)
    (hQs : ∀ data name elements, Q data → field data name = .arr elements →
      ∀ value ∈ elements, ∀ nested id, nestedEntity value = some (nested, id) → Q nested)
    (hP : ∀ fuel entityType data visit, Q data → Fresh fuel entityType data visit →
      P entityType (walk relations fuel entityType data visit).normalized)
    {fuel : ℕ} {entityType : String} {data : Entity} {visit : List String} (hdata : Q data)
    (h : Fresh fuel entityType data visit) :
    Collects P (walk relations fuel entityType data visit).extracted := by
  induction fuel generalizing entityType data visit with
  | zero => exact absurd h.depth (Nat.not_lt_zero _)
  | succ fuel ih =>
    rw [walk]
    cases relations entityType with
    | none => exact collects_empty
    | some schema =>
      simp only [if_neg h.key]
      have hnest : NestSpec P Q (Js.depthEntries data.entries) (walk relations fuel) := by
        intro entity nested visit' hnested hdepth hkey
        have hfresh : Fresh fuel entity nested visit' :=
          { depth := lt_of_lt_of_le hdepth (Nat.lt_succ_iff.mp h.depth), key := hkey }
        exact ⟨hP fuel entity nested visit' hnested hfresh, ih hnested hfresh⟩
      refine List.foldlRecOn schema.entries (motive := fun w : Walk => Collects P w.extracted)
        _ collects_empty ?_
      intro acc hacc e _
      exact collects_normalizeField hnest hacc e (hQ data e.1 hdata)
        fun elements hvalue => hQs data e.1 elements hdata hvalue

end Collect

/-! ### The results -/

variable {relations : Relations}

/-- `normalizeEntity` walks the payload with a fresh key and a large
enough bound. -/
theorem fresh_normalize (entityType : String) (data : Entity) :
    Fresh (Js.depthEntries data.entries + 1) entityType data [] :=
  { depth := Nat.lt_succ_self _, key := not_mem_nil }

/-- JSON data: no `undefined` at any depth. -/
def JsonEntity (entity : Entity) : Prop := ∀ key value, entity.get? key = some value →
  value.isJson = true

instance (entity : Entity) : Decidable (JsonEntity entity) :=
  decidable_of_iff (Js.isJsonEntries entity.entries = true) (by
    rw [Js.isJsonEntries_iff]
    exact ⟨fun h key value hget => h (key, value) ((entity.mem_entries_iff).mpr hget),
      fun h e he => h e.1 e.2 ((entity.mem_entries_iff).mp he)⟩)

theorem JsonEntity.nested {value : Js} (hvalue : value.isJson = true) {nested : Entity}
    {id : String} (h : nestedEntity value = some (nested, id)) : JsonEntity nested := by
  cases value with
  | obj entries =>
    rw [Js.isJson, Js.isJsonEntries_iff] at hvalue
    rw [nestedEntity] at h
    split at h
    · cases h
      intro key v hget
      exact hvalue (key, v) (Record.mem_of_mem_ofList ((Record.mem_entries_iff _).mpr hget))
    · cases h
  | _ => cases h

theorem JsonEntity.field (h : JsonEntity data) {name : String}
    (hfield : field data name ≠ .undefined) : (field data name).isJson = true := by
  rw [Store.field] at hfield ⊢
  cases hget : data.get? name with
  | none =>
    rw [hget] at hfield
    exact absurd rfl hfield
  | some value => exact h name value hget

theorem JsonEntity.defined {entity : Entity} (h : JsonEntity entity) : Defined entity :=
  fun key hkey => Bool.noConfusion (h key _ hkey)

theorem isJson_bareRef {value : Js} (h : value.isJson = true) : (bareRef value).isJson = true := by
  rw [bareRef]
  split
  · rfl
  · exact h

theorem isJson_storedField {schema : RelationSchema} {name : String} {value : Js}
    (h : value.isJson = true) : (storedField schema name value).isJson = true := by
  rw [storedField]
  cases schema.get? name with
  | none => exact h
  | some rel =>
    obtain ⟨type, entity⟩ := rel
    cases type with
    | one => exact isJson_bareRef h
    | many =>
      cases value with
      | arr elements =>
        rw [Js.isJson, Js.isJsonList_iff] at h
        show Js.isJsonList (elements.map bareRef) = true
        rw [Js.isJsonList_iff]
        intro value hvalue
        obtain ⟨element, helement, rfl⟩ := mem_map.mp hvalue
        exact isJson_bareRef (h element helement)
      | _ => exact h

theorem json_walk {fuel : ℕ} {visit : List String} (hdata : JsonEntity data)
    (h : Fresh fuel entityType data visit) :
    JsonEntity (walk relations fuel entityType data visit).normalized := by
  intro key value hvalue
  rw [get?_walk h] at hvalue
  cases hschema : relations entityType with
  | none =>
    rw [hschema] at hvalue
    exact hdata key value hvalue
  | some schema =>
    rw [hschema] at hvalue
    obtain ⟨v, hv, rfl⟩ := Option.map_eq_some_iff.mp hvalue
    exact isJson_storedField (hdata key v hv)

theorem normalizeEntity_json (relations : Relations) (entityType : String) (h : JsonEntity data) :
    JsonEntity (normalizeEntity relations entityType data).normalized ∧
      Collects (fun _ => JsonEntity) (normalizeEntity relations entityType data).extracted := by
  refine ⟨json_walk h (fresh_normalize entityType data), ?_⟩
  refine walk_collects (Q := JsonEntity) ?_ ?_ ?_ h (fresh_normalize entityType data)
  · intro data' name hdata' nested id hnested
    have hfield : field data' name ≠ .undefined := by
      intro hundef
      rw [hundef] at hnested
      cases hnested
    exact JsonEntity.nested (hdata'.field hfield) hnested
  · intro data' name elements hdata' hfield value hmem nested id hnested
    have hjson : (Js.arr elements).isJson = true := by
      rw [← hfield]
      exact hdata'.field (by rw [hfield]; exact Js.noConfusion)
    rw [Js.isJson, Js.isJsonList_iff] at hjson
    exact JsonEntity.nested (hjson value hmem) hnested
  · intro fuel entityType' data' visit hdata' hfresh
    exact json_walk hdata' hfresh

/-- JSON data gives entities without undefined fields. -/
theorem normalizeEntity_defined (relations : Relations) (entityType : String)
    (h : JsonEntity data) :
    Defined (normalizeEntity relations entityType data).normalized ∧
      Collects (fun _ => Defined) (normalizeEntity relations entityType data).extracted := by
  obtain ⟨hnormalized, hextracted⟩ := normalizeEntity_json relations entityType h
  refine ⟨hnormalized.defined, ?_⟩
  intro type items hitems item hitem
  exact (hextracted type items hitems item hitem).defined

theorem JsonEntity.shallowMerge {existing incoming : Entity} (he : JsonEntity existing)
    (hi : JsonEntity incoming) : JsonEntity (shallowMerge existing incoming) := by
  intro key value hvalue
  rw [get?_shallowMerge] at hvalue
  cases hin : (incoming.get? key).filter fun v => decide (v ≠ Js.undefined) with
  | none =>
    rw [hin] at hvalue
    exact he key value hvalue
  | some v =>
    rw [hin] at hvalue
    cases hvalue
    exact hi key _ (Option.filter_eq_some_iff.mp hin).1

/-- No element of a 'many' relation and no value of a 'one' relation is
an object with an id. -/
def BareValue (rel : RelationFieldDef) (value : Js) : Prop :=
  match rel.type, value with
  | .one, value => nestedEntity value = none
  | .many, .arr elements => ∀ element ∈ elements, nestedEntity element = none
  | .many, _ => True

/-- The relation fields of the entity hold ids. -/
def Bare (relations : Relations) (entityType : String) (entity : Entity) : Prop :=
  ∀ schema name rel value, relations entityType = some schema → schema.get? name = some rel →
    entity.get? name = some value → BareValue rel value

instance (rel : RelationFieldDef) (value : Js) : Decidable (BareValue rel value) := by
  unfold BareValue
  split <;> infer_instance

instance (relations : Relations) (entityType : String) (entity : Entity) :
    Decidable (Bare relations entityType entity) :=
  decidable_of_iff (∀ schema ∈ relations entityType, ∀ e ∈ schema.entries,
      ∀ value ∈ entity.get? e.1, BareValue e.2 value) (by
    constructor
    · intro h schema name rel value hschema hrel hvalue
      exact h schema hschema (name, rel) ((schema.mem_entries_iff).mpr hrel) value hvalue
    · intro h schema hschema e he value hvalue
      exact h schema e.1 e.2 value hschema ((schema.mem_entries_iff).mp he) hvalue)

theorem nestedEntity_bareRef (value : Js) : nestedEntity (bareRef value) = none := by
  rw [bareRef]
  split
  · rfl
  · assumption

theorem bareValue_storedValue (rel : RelationFieldDef) (value : Js) :
    BareValue rel (storedValue rel value) := by
  obtain ⟨type, entity⟩ := rel
  cases type with
  | one => exact nestedEntity_bareRef value
  | many =>
    cases value with
    | arr values =>
      intro element hmem
      obtain ⟨v, _, rfl⟩ := mem_map.mp hmem
      exact nestedEntity_bareRef v
    | _ => trivial

theorem storedValue_of_bare {rel : RelationFieldDef} {value : Js} (h : BareValue rel value) :
    storedValue rel value = value := by
  obtain ⟨type, entity⟩ := rel
  cases type with
  | one => exact bareRef_of_none h
  | many =>
    cases value with
    | arr elements =>
      have hmap : elements.map bareRef = elements :=
        (map_congr_left fun element hmem =>
          bareRef_of_none (h element hmem)).trans (map_id elements)
      show Js.arr (elements.map bareRef) = .arr elements
      rw [hmap]
    | _ => rfl

theorem bare_walk {fuel : ℕ} {visit : List String} (h : Fresh fuel entityType data visit) :
    Bare relations entityType (walk relations fuel entityType data visit).normalized := by
  intro schema name rel value hschema hrel hvalue
  rw [get?_walk h, hschema] at hvalue
  obtain ⟨v, _, hv⟩ := Option.map_eq_some_iff.mp hvalue
  rw [← hv, storedField, hrel]
  exact bareValue_storedValue rel v

theorem normalizeEntity_bare (entityType : String) (data : Entity) :
    Bare relations entityType (normalizeEntity relations entityType data).normalized ∧
      Collects (Bare relations) (normalizeEntity relations entityType data).extracted := by
  refine ⟨bare_walk (fresh_normalize entityType data), ?_⟩
  exact walk_collects (Q := fun _ => True) (fun _ _ _ _ _ _ => trivial)
    (fun _ _ _ _ _ _ _ _ _ _ => trivial) (fun _ _ _ _ _ hfresh => bare_walk hfresh) trivial
    (fresh_normalize entityType data)

theorem Bare.of_same {a b : Entity} (ha : Bare relations entityType a) (h : a.Same b) :
    Bare relations entityType b :=
  fun schema name rel value hschema hrel hvalue =>
    ha schema name rel value hschema hrel ((h name).trans hvalue)

theorem Bare.shallowMerge {existing incoming : Entity} (he : Bare relations entityType existing)
    (hi : Bare relations entityType incoming) :
    Bare relations entityType (shallowMerge existing incoming) := by
  intro schema name rel value hschema hrel hvalue
  rw [get?_shallowMerge] at hvalue
  cases hin : (incoming.get? name).filter fun v => decide (v ≠ Js.undefined) with
  | none =>
    rw [hin] at hvalue
    exact he schema name rel value hschema hrel hvalue
  | some v =>
    rw [hin] at hvalue
    cases hvalue
    exact hi schema name rel _ hschema hrel (Option.filter_eq_some_iff.mp hin).1

theorem normalizeField_of_bare {nest : String → Entity → List String → Walk} {acc : Walk}
    {name : String} {rel : RelationFieldDef}
    (h : ∀ value, data.get? name = some value → BareValue rel value) :
    (normalizeField nest data acc (name, rel)).extracted = acc.extracted := by
  obtain ⟨type, entity⟩ := rel
  have hbare : BareValue { type := type, entity := entity } (field data name) := by
    rw [field]
    cases hget : data.get? name with
    | none => cases type <;> simp [BareValue, nestedEntity]
    | some value => exact h value hget
  cases type with
  | one =>
    have hnone : nestedEntity (field data name) = none := hbare
    simp only [normalizeField, hnone]
  | many =>
    cases hvalue : field data name with
    | arr elements =>
      rw [hvalue] at hbare
      have hall : ∀ element ∈ elements, nestedEntity element = none := hbare
      have hfold : elements.foldl (visitNested nest entity) acc = acc := by
        clear hvalue hbare
        induction elements with
        | nil => rfl
        | cons value rest ih =>
          have hhead : visitNested nest entity acc value = acc := by
            rw [visitNested, hall value mem_cons_self]
          rw [foldl_cons, hhead]
          exact ih fun element he => hall element (mem_cons_of_mem _ he)
      simp only [normalizeField, hvalue, hfold]
    | _ => simp only [normalizeField, hvalue]

theorem normalizeEntity_of_bare (h : Bare relations entityType data) :
    (normalizeEntity relations entityType data).normalized.Same data ∧
      (normalizeEntity relations entityType data).extracted = Record.empty := by
  constructor
  · intro key
    show (walk relations _ entityType data []).normalized.get? key = _
    rw [get?_walk (fresh_normalize entityType data)]
    cases hschema : relations entityType with
    | none => rfl
    | some schema =>
      cases hget : data.get? key with
      | none => rfl
      | some value =>
        show some (storedField schema key value) = some value
        rw [storedField]
        split
        · rfl
        · rename_i rel hrel
          rw [storedValue_of_bare (h schema key rel value hschema hrel hget)]
  · show (walk relations (_ + 1) entityType data []).extracted = _
    rw [walk]
    cases hschema : relations entityType with
    | none => rfl
    | some schema =>
      simp only [if_neg (fresh_normalize entityType data).key]
      refine List.foldlRecOn schema.entries
        (motive := fun w : Walk => w.extracted = Record.empty) _ rfl ?_
      intro acc hacc e he
      rw [← hacc]
      exact normalizeField_of_bare fun value hvalue =>
        h schema e.1 e.2 value hschema ((schema.mem_entries_iff).mp he) hvalue

end Vertz.Ui.Store
