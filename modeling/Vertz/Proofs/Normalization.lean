import Vertz.Proofs.EntityEntries

/-!
# `Vertz.Proofs.Normalization`: what a merged payload leaves in the store

The walk of `normalizeEntity` collects the unrepeated occurrences below a
payload, by type (`collected_walk`), and the store merges them field by
field (`baseField_mergeExtracted`). So the base of an entity holds what the
unrepeated occurrences say last (`baseField_merge`).

`repeats_add_nothing_iff` compares this with the whole payload. In
`second_author_lost` a user is the author and the reviewer of a post.
-/

namespace Vertz.Spec

open Vertz.Ui.Store.EntityStore
open Vertz.Lib Vertz.Ui.Store List

variable {relations : Relations}

/-! ### The base of an entry -/

theorem field_shallowMerge (existing incoming : Entity) (name : String) :
    field (shallowMerge existing incoming) name =
      if field incoming name = .undefined then field existing name else field incoming name := by
  rw [field, get?_shallowMerge]
  cases hin : incoming.get? name with
  | none => simp [field, hin]
  | some value =>
    by_cases hvalue : value = .undefined
    · subst hvalue
      simp [field, hin, Option.filter]
    · simp [field, hin, hvalue, Option.filter]

theorem base_mergeItem (entry : EntityEntry) (item : Entity) :
    (entry.mergeItem item).base.Same (shallowMerge entry.base item) := by
  rw [EntityEntry.mergeItem]
  split
  · next hequal =>
      refine (shallowEqual_iff fun key hkey => ?_).mp hequal
      rw [get?_shallowMerge, hkey]
      cases (item.get? key).filter _ <;> rfl
  · rw [EntityEntry.base_recompute]
    exact Record.Same.refl _

theorem field_of_same {a b : Entity} (h : a.Same b) (name : String) :
    field a name = field b name := by
  rw [field, field, h name]

/-- A field of the base of an entry. -/
def baseOf (entry : Option EntityEntry) (name : String) : Js :=
  match entry with
  | none => .undefined
  | some entry => field entry.base name

theorem baseOf_mergedEntry (item : Entity) (entry : Option EntityEntry) (name : String) :
    baseOf (some (mergedEntry item entry)) name =
      if field item name = .undefined then baseOf entry name else field item name := by
  cases entry with
  | none =>
    show field item name = _
    split
    · assumption
    · rfl
  | some entry =>
    show field (entry.mergeItem item).base name = _
    rw [field_of_same (base_mergeItem entry item), field_shallowMerge]
    rfl

/-! ### A list of entities is merged -/

/-- An entry after the entities are merged. -/
def entryAfter (items : List Entity) (id : String) (entry : Option EntityEntry) :
    Option EntityEntry :=
  items.foldl (fun entry item =>
    if idOf item = id then some (mergedEntry item entry) else entry) entry

theorem entryAt_foldl_mergeOne (items : List Entity) (store : EntityStore) (type id : String) :
    (items.foldl (fun s item => s._mergeOne type item) store).entryAt type id =
      entryAfter items id (store.entryAt type id) := by
  induction items generalizing store with
  | nil => rfl
  | cons item items ih =>
    rw [foldl_cons, ih, entryAt_mergeOne, entryAfter, entryAfter, foldl_cons]
    by_cases hid : idOf item = id
    · simp [hid]
    · simp [hid]

theorem entryAt_foldl_other {type type' : String} (hne : type ≠ type') (items : List Entity)
    (store : EntityStore) (id : String) :
    (items.foldl (fun s item => s._mergeOne type item) store).entryAt type' id =
      store.entryAt type' id := by
  induction items generalizing store with
  | nil => rfl
  | cons item items ih =>
    rw [foldl_cons, ih, entryAt_mergeOne, if_neg fun h => hne h.1]

/-- The entities collected for a type. -/
def ofType (extracted : Extracted) (type : String) : List Entity :=
  (extracted.get? type).getD []

theorem entryAt_mergeExtracted (extracted : Extracted) (store : EntityStore) (type id : String) :
    (store.mergeExtracted extracted).entryAt type id =
      entryAfter (ofType extracted type) id (store.entryAt type id) := by
  obtain ⟨entries, hnodup⟩ := extracted
  show (entries.foldl _ store).entryAt type id =
    entryAfter ((Record.lookup type entries).getD []) id _
  induction entries generalizing store with
  | nil => rfl
  | cons e entries ih =>
    rw [map_cons, nodup_cons] at hnodup
    rw [foldl_cons, ih _ hnodup.2]
    by_cases htype : e.1 = type
    · have hnone : Record.lookup type entries = none := by
        rw [← Option.not_isSome_iff_eq_none, Record.lookup_isSome_iff, ← htype]
        exact hnodup.1
      rw [hnone]
      subst htype
      simpa [Record.lookup, entryAfter] using entryAt_foldl_mergeOne e.2 store e.1 id
    · simp only [Record.lookup, htype, if_false]
      rw [entryAt_foldl_other htype]

theorem entryAt_mergeItem (store : EntityStore) (type : String) (item : Entity)
    (type' id : String) :
    (mergeItem relations type store item).entryAt type' id =
      if type = type' ∧ idOf (normalizeEntity relations type item).normalized = id then
        some (mergedEntry (normalizeEntity relations type item).normalized
          (entryAfter (ofType (normalizeEntity relations type item).extracted type') id
            (store.entryAt type' id)))
      else
        entryAfter (ofType (normalizeEntity relations type item).extracted type') id
          (store.entryAt type' id) := by
  rw [mergeItem, entryAt_mergeOne, entryAt_mergeExtracted,
    entryAt_mergeExtracted]
  split
  · next h =>
      obtain ⟨rfl, rfl⟩ := h
      rfl
  · rfl

/-- What the entities say of a field, in turn. -/
def told (items : List Entity) (id name : String) : List Js :=
  items.filterMap fun item =>
    if idOf item = id ∧ field item name ≠ .undefined then some (field item name) else none

theorem getLast?_append_getD {α : Type} (xs ys : List α) (b : α) :
    (xs ++ ys).getLast?.getD b = ys.getLast?.getD (xs.getLast?.getD b) := by
  rw [getLast?_append]
  cases ys.getLast? <;> rfl

theorem baseOf_entryAfter (items : List Entity) (entry : Option EntityEntry) (id name : String) :
    baseOf (entryAfter items id entry) name =
      (told items id name).getLast?.getD (baseOf entry name) := by
  induction items generalizing entry with
  | nil => rfl
  | cons item items ih =>
    have htold : told (item :: items) id name = told [item] id name ++ told items id name :=
      filterMap_append (l := [item])
    rw [entryAfter, foldl_cons, ← entryAfter, ih, htold, getLast?_append_getD]
    congr 1
    by_cases hid : idOf item = id
    · rw [if_pos hid, baseOf_mergedEntry]
      by_cases hvalue : field item name = .undefined
      · simp [told, hvalue]
      · simp [told, hid, hvalue]
    · simp [told, hid]

/-! ### What the walk collects -/

/-- A merged entity is an occurrence with its relations replaced by ids. -/
structure StoredAs (relations : Relations) (item : Entity) (o : Occurrence) : Prop where
  entity : item = storedEntity relations o
  id : idOf item = o.id
  fields : ∀ name, field item name = o.stored relations name

/-- The entities collected for each type are the occurrences of the type. -/
def CollectedAs (relations : Relations) (extracted : Extracted) (os : List Occurrence) : Prop :=
  ∀ type, List.Forall₂ (StoredAs relations) (ofType extracted type)
    (os.filter fun o => o.type = type)

variable {type : String}

theorem told_eq_said {items : List Entity} {os : List Occurrence}
    (h : List.Forall₂ (StoredAs relations) items (os.filter fun o => o.type = type))
    (id name : String) : told items id name = said relations os type id name := by
  have hsaid : said relations os type id name =
      said relations (os.filter fun o => o.type = type) type id name := by
    rw [said, said, filterMap_filter]
    refine filterMap_congr fun o _ => ?_
    by_cases htype : o.type = type
    · simp [htype]
    · simp [htype]
  have htypes : ∀ o ∈ os.filter fun o => o.type = type, o.type = type := fun o ho =>
    of_decide_eq_true (mem_filter.mp ho).2
  rw [hsaid]
  generalize os.filter (fun o => o.type = type) = found at h htypes
  induction h with
  | nil => rfl
  | cons hstored _ ih =>
    have ih := ih fun o ho => htypes o (mem_cons_of_mem _ ho)
    have htype := htypes _ mem_cons_self
    rw [told, said] at ih ⊢
    simp only [filterMap_cons, ih, hstored.id, hstored.fields, htype, true_and]

theorem ofType_pushAll (extracted : Extracted) (type : String) (items : List Entity)
    (type' : String) :
    ofType (pushAll extracted type items) type' =
      ofType extracted type' ++ if type = type' then items else [] := by
  rw [ofType, pushAll, Record.get?_insert]
  split
  · next h =>
      subst h
      rfl
  · exact (append_nil _).symm

theorem ofType_foldl_pushAll {es : List (String × List Entity)} (hnodup : (es.map Prod.fst).Nodup)
    (extracted : Extracted) (type : String) :
    ofType (es.foldl (fun ex e => pushAll ex e.1 e.2) extracted) type =
      ofType extracted type ++ (Record.lookup type es).getD [] := by
  induction es generalizing extracted with
  | nil => exact (append_nil _).symm
  | cons e es ih =>
    rw [map_cons, nodup_cons] at hnodup
    rw [foldl_cons, ih hnodup.2, ofType_pushAll, append_assoc]
    by_cases htype : e.1 = type
    · have hnone : Record.lookup type es = none := by
        rw [← Option.not_isSome_iff_eq_none, Record.lookup_isSome_iff, ← htype]
        exact hnodup.1
      simp [Record.lookup, htype, hnone]
    · simp [Record.lookup, htype]

theorem CollectedAs.push {extracted below : Extracted} {os cs : List Occurrence} {item : Entity}
    {c : Occurrence} (h : CollectedAs relations extracted os) (hitem : StoredAs relations item c)
    (hbelow : CollectedAs relations below cs) :
    CollectedAs relations (below.entries.foldl (fun ex e => pushAll ex e.1 e.2)
      (pushAll extracted c.type [item])) (os ++ c :: cs) := by
  intro type
  rw [ofType_foldl_pushAll below.nodup, ofType_pushAll, filter_append, append_assoc]
  refine rel_append (h type) ?_
  by_cases htype : c.type = type
  · rw [if_pos htype, filter_cons_of_pos (by simpa using htype)]
    exact .cons hitem (hbelow type)
  · rw [if_neg htype, filter_cons_of_neg (by simpa using htype)]
    exact hbelow type

/-- The walk has met the keys and collected the occurrences. -/
structure Tracks (relations : Relations) (w : Walk) (acc : List Occurrence × List String) :
    Prop where
  visit : w.visit = acc.2
  collected : CollectedAs relations w.extracted acc.1

theorem storedField_str (schema : RelationSchema) (name s : String) :
    storedField schema name (.str s) = .str s := by
  rw [storedField]
  split
  · rfl
  · next rel _ =>
      obtain ⟨type, entity⟩ := rel
      cases type <;> rfl

theorem storedField_undefined (schema : RelationSchema) (name : String) :
    storedField schema name .undefined = .undefined := by
  rw [storedField]
  split
  · rfl
  · next rel _ =>
      obtain ⟨type, entity⟩ := rel
      cases type <;> rfl

variable {visit : List String}

theorem field_walk {fuel : ℕ} {data : Entity} (h : Fresh fuel type data visit) (name : String) :
    field (walk relations fuel type data visit).normalized name =
      Occurrence.stored relations ⟨type, data⟩ name := by
  rw [field, get?_walk h, Occurrence.stored, field]
  cases relations type with
  | none => rfl
  | some schema =>
    cases data.get? name with
    | none => exact (storedField_undefined schema name).symm
    | some value => rfl

theorem keys_insert_of_field {acc data : Entity} {name : String} {value : Js}
    (hacc : acc.keys = data.keys) (h : field data name ≠ .undefined) :
    (acc.insert name value).keys = data.keys := by
  have hmem : name ∈ data.keys := by
    rw [Record.mem_keys_iff]
    rw [field] at h
    cases hget : data.get? name with
    | none =>
      rw [hget] at h
      exact absurd rfl h
    | some v => rfl
  exact (Record.keys_insert_of_mem (hacc ▸ hmem)).trans hacc

theorem keys_normalizeField {nest : String → Entity → List String → Walk} {data : Entity}
    {acc : Walk} (hacc : acc.normalized.keys = data.keys) (e : String × RelationFieldDef) :
    (normalizeField nest data acc e).normalized.keys = data.keys := by
  obtain ⟨name, type, entity⟩ := e
  cases type with
  | one =>
    simp only [normalizeField]
    cases hnested : nestedEntity (field data name) with
    | none => exact hacc
    | some n =>
      refine keys_insert_of_field ?_ fun h => ?_
      · rw [visitNested_normalized]
        exact hacc
      · rw [h] at hnested
        cases hnested
  | many =>
    cases hvalue : field data name with
    | arr elements =>
      simp only [normalizeField, hvalue]
      refine keys_insert_of_field ?_ fun h => ?_
      · rw [foldl_visitNested_normalized]
        exact hacc
      · rw [h] at hvalue
        cases hvalue
    | _ =>
      simp only [normalizeField, hvalue]
      exact hacc

theorem keys_walk {fuel : ℕ} {data : Entity} (h : Fresh fuel type data visit) :
    (walk relations fuel type data visit).normalized.keys = data.keys := by
  cases fuel with
  | zero => rfl
  | succ fuel =>
    rw [walk]
    cases relations type with
    | none => rfl
    | some schema =>
      simp only [if_neg h.key]
      exact List.foldlRecOn schema.entries
        (motive := fun w : Walk => w.normalized.keys = data.keys) _ rfl
        fun _ hacc e _ => keys_normalizeField hacc e

theorem storedAs_walk {fuel : ℕ} {data : Entity} {id : String} (h : Fresh fuel type data visit)
    (hid : field data "id" = .str id) :
    StoredAs relations (walk relations fuel type data visit).normalized ⟨type, data⟩ := by
  refine ⟨?_, ?_, field_walk h⟩
  · have hfresh := fresh_normalize type data
    exact Record.eq_of_keys ((keys_walk h).trans (keys_walk hfresh).symm) fun key =>
      (get?_walk h key).trans (get?_walk hfresh key).symm
  have hstored : Occurrence.stored relations ⟨type, data⟩ "id" = .str id := by
    rw [Occurrence.stored]
    split
    · exact hid
    · show storedField _ "id" (field data "id") = _
      rw [hid, storedField_str]
  show _ = idOf data
  rw [idOf, field_walk h, hstored, idOf, hid]

section Nest

variable {nest : String → Entity → List String → Walk}
  {below : List String → Occurrence → List Occurrence × List String} {bound : ℕ}

/-- What the walk over a nested entity has to give. -/
def NestTracks (relations : Relations) (bound : ℕ) (nest : String → Entity → List String → Walk)
    (below : List String → Occurrence → List Occurrence × List String) : Prop :=
  ∀ entity data visit id, field data "id" = .str id → Js.depthEntries data.entries < bound →
    visitKey entity (idOf data) ∉ visit →
      StoredAs relations (nest entity data visit).normalized ⟨entity, data⟩ ∧
        Tracks relations (nest entity data visit) (below visit ⟨entity, data⟩)

theorem field_nestedEntity {value : Js} {data : Entity} {id : String}
    (h : nestedEntity value = some (data, id)) : field data "id" = .str id := by
  cases value with
  | obj entries =>
    rw [nestedEntity] at h
    split at h
    · next hid =>
        obtain ⟨rfl, rfl⟩ := Prod.mk.inj (Option.some.inj h)
        exact hid
    · cases h
  | _ => cases h

variable {acc : List Occurrence × List String}

theorem tracks_visitNested (hnest : NestTracks relations bound nest below) {w : Walk}
    (h : Tracks relations w acc) (entity : String) {value : Js} (hdepth : Js.depth value ≤ bound) :
    Tracks relations (visitNested nest entity w value)
      (((nestedEntity value).toList.map fun n => ⟨entity, n.1⟩).foldl (meet below) acc) := by
  rw [visitNested]
  cases hnested : nestedEntity value with
  | none => exact h
  | some n =>
    obtain ⟨data, id⟩ := n
    have hkey : Occurrence.key ⟨entity, data⟩ = visitKey entity id :=
      congrArg (visitKey entity) (idOf_nestedEntity hnested)
    show Tracks relations _ (meet below acc ⟨entity, data⟩)
    rw [meet, hkey, ← h.visit]
    by_cases hmet : visitKey entity id ∈ w.visit
    · simp only [if_pos hmet]
      exact h
    · obtain ⟨hstored, htracks⟩ := hnest entity data w.visit id (field_nestedEntity hnested)
        (lt_of_lt_of_le (depth_nestedEntity hnested) hdepth)
        (by rw [idOf_nestedEntity hnested]; exact hmet)
      simp only [if_neg hmet]
      exact ⟨htracks.visit, h.collected.push hstored htracks.collected⟩

theorem tracks_elements (hnest : NestTracks relations bound nest below) (entity : String)
    {elements : List Js} (hdepth : ∀ value ∈ elements, Js.depth value ≤ bound) {w : Walk}
    (h : Tracks relations w acc) :
    Tracks relations (elements.foldl (visitNested nest entity) w)
      ((elements.filterMap fun value => (nestedEntity value).map fun n =>
        (⟨entity, n.1⟩ : Occurrence)).foldl (meet below) acc) := by
  induction elements generalizing w acc with
  | nil => exact h
  | cons value elements ih =>
    have hhead := tracks_visitNested hnest h entity (hdepth value mem_cons_self)
    have hrest := ih (fun v hv => hdepth v (mem_cons_of_mem _ hv)) hhead
    rw [foldl_cons]
    cases hnested : nestedEntity value with
    | none =>
      rw [hnested] at hrest
      rw [filterMap_cons_none (by rw [hnested]; rfl)]
      exact hrest
    | some n =>
      rw [hnested] at hrest
      rw [filterMap_cons_some (by rw [hnested]; rfl)]
      exact hrest

theorem tracks_normalizeField {data : Entity}
    (hnest : NestTracks relations (Js.depthEntries data.entries) nest below) {w : Walk}
    (h : Tracks relations w acc) (e : String × RelationFieldDef) :
    Tracks relations (normalizeField nest data w e) ((entitiesIn data e).foldl (meet below) acc) := by
  obtain ⟨name, type, entity⟩ := e
  have hdepth := depth_field data name
  cases type with
  | one =>
    have hvisit := tracks_visitNested hnest h entity hdepth
    simp only [normalizeField]
    cases hnested : nestedEntity (field data name) with
    | none =>
      simp only [entitiesIn, hnested]
      exact h
    | some n =>
      simp only [entitiesIn]
      exact ⟨hvisit.visit, hvisit.collected⟩
  | many =>
    cases hvalue : field data name with
    | arr elements =>
      rw [hvalue, Js.depth] at hdepth
      have hbound : ∀ value ∈ elements, Js.depth value ≤ Js.depthEntries data.entries :=
        fun value hmem => (Js.depth_le_depthList hmem).trans (by omega)
      have helements := tracks_elements hnest entity hbound h
      simp only [normalizeField, entitiesIn, hvalue]
      exact ⟨helements.visit, helements.collected⟩
    | _ =>
      simp only [normalizeField, entitiesIn, hvalue]
      exact h

theorem tracks_normalizeFields {data : Entity}
    (hnest : NestTracks relations (Js.depthEntries data.entries) nest below)
    (rels : List (String × RelationFieldDef)) {w : Walk} (h : Tracks relations w acc) :
    Tracks relations (rels.foldl (normalizeField nest data) w)
      ((rels.flatMap (entitiesIn data)).foldl (meet below) acc) := by
  induction rels generalizing w acc with
  | nil => exact h
  | cons e rels ih =>
    rw [foldl_cons, flatMap_cons, foldl_append]
    exact ih (tracks_normalizeField hnest h e)

end Nest

/-- The walk collects the unrepeated occurrences below an entity. -/
theorem tracks_walk {fuel : ℕ} {data : Entity} (h : Fresh fuel type data visit) :
    Tracks relations (walk relations fuel type data visit)
      (belowTo relations fuel visit ⟨type, data⟩) := by
  induction fuel generalizing type data visit with
  | zero => exact absurd h.depth (Nat.not_lt_zero _)
  | succ fuel ih =>
    rw [walk, belowTo, nested]
    dsimp only
    cases hschema : relations type with
    | none => exact ⟨rfl, fun _ => .nil⟩
    | some schema =>
      simp only [if_neg h.key]
      have hnest : NestTracks relations (Js.depthEntries data.entries) (walk relations fuel)
          (belowTo relations fuel) := by
        intro entity nestedData visit' id hid hdepth hkey
        have hfresh : Fresh fuel entity nestedData visit' :=
          { depth := lt_of_lt_of_le hdepth (Nat.lt_succ_iff.mp h.depth), key := hkey }
        exact ⟨storedAs_walk hfresh hid, ih hfresh⟩
      exact tracks_normalizeFields hnest schema.entries ⟨rfl, fun _ => .nil⟩

/-! ### The order of the occurrences -/

/-- The keys are still met, and none of the occurrences has one of them. -/
structure Extends (met : List String) (acc : List Occurrence × List String) : Prop where
  keeps : ∀ key ∈ met, key ∈ acc.2
  fresh : ∀ c ∈ acc.1, c.key ∉ met

theorem Extends.meet {below : List String → Occurrence → List Occurrence × List String}
    (hbelow : ∀ met c, Extends met (below met c)) {met : List String}
    {acc : List Occurrence × List String} (h : Extends met acc) (c : Occurrence) :
    Extends met (meet below acc c) := by
  rw [Spec.meet]
  split
  · exact h
  · next hkey =>
      refine ⟨fun key hmem => (hbelow acc.2 c).keeps key (h.keeps key hmem), fun c' hc' hmem => ?_⟩
      rcases mem_append.mp hc' with hold | hnew
      · exact h.fresh c' hold hmem
      · rcases mem_cons.mp hnew with rfl | hnew
        · exact hkey (h.keeps _ hmem)
        · exact (hbelow acc.2 c).fresh c' hnew (h.keeps _ hmem)

theorem Extends.mono {met met' : List String} {acc : List Occurrence × List String}
    (h : Extends met' acc) (hsub : ∀ key ∈ met, key ∈ met') : Extends met acc :=
  ⟨fun key hmem => h.keeps key (hsub key hmem), fun c hc hmem => h.fresh c hc (hsub _ hmem)⟩

/-- Nothing below an entity has its key, or one met before. -/
theorem extends_below (depth : ℕ) (met : List String) (o : Occurrence) :
    Extends met (belowTo relations depth met o) ∧
      ((relations o.type).isSome → 0 < depth →
        Extends (o.key :: met) (belowTo relations depth met o)) := by
  induction depth generalizing met o with
  | zero =>
    exact ⟨⟨fun _ h => h, fun _ hc => by cases hc⟩, fun _ h => absurd h (Nat.lt_irrefl 0)⟩
  | succ depth ih =>
    rw [belowTo]
    cases relations o.type with
    | none => exact ⟨⟨fun _ h => h, fun _ hc => by cases hc⟩, fun h => by cases h⟩
    | some schema =>
      have hkey : Extends (o.key :: met)
          ((nested relations o).foldl (Spec.meet (belowTo relations depth)) ([], o.key :: met)) := by
        refine List.foldlRecOn (nested relations o) (motive := Extends (o.key :: met)) _
          ⟨fun _ h => h, fun _ hc => by cases hc⟩ fun acc hacc c _ => ?_
        exact hacc.meet (fun met' c' => (ih met' c').1) c
      exact ⟨hkey.mono fun _ h => mem_cons_of_mem _ h, fun _ _ => hkey⟩

theorem said_append (os os' : List Occurrence) (type id name : String) :
    said relations (os ++ os') type id name =
      said relations os type id name ++ said relations os' type id name :=
  filterMap_append

theorem lastSaid_append_getD (os os' : List Occurrence) (type id name : String) (value : Js) :
    (lastSaid relations (os ++ os') type id name).getD value =
      (lastSaid relations os' type id name).getD
        ((lastSaid relations os type id name).getD value) := by
  rw [lastSaid, said_append, getLast?_append_getD]
  rfl

theorem said_below {depth : ℕ} {o : Occurrence} (hdepth : 0 < depth) {type id : String}
    (htype : o.type = type) (hid : o.id = id) (name : String) :
    said relations (belowTo relations depth [] o).1 type id name = [] := by
  refine filterMap_eq_nil_iff.mpr fun c hc => if_neg fun hsaid => ?_
  have hkey : c.key = o.key := by
    rw [Occurrence.key, Occurrence.key, hsaid.1, hsaid.2.1, htype, hid]
  cases hschema : relations o.type with
  | none =>
    cases depth with
    | zero => cases hc
    | succ depth =>
      rw [belowTo, hschema] at hc
      cases hc
  | some schema =>
    have hsome : (relations o.type).isSome := by rw [hschema]; rfl
    have hextends := (extends_below depth [] o).2 hsome hdepth
    exact hextends.fresh c hc (hkey ▸ mem_cons_self)

/-! ### Payloads without repetitions -/

theorem depth_nested {o c : Occurrence} (h : c ∈ nested relations o) :
    Js.depthEntries c.data.entries < Js.depthEntries o.data.entries := by
  rw [nested] at h
  split at h
  · cases h
  · obtain ⟨e, _, hc⟩ := mem_flatMap.mp h
    have hdepth := depth_field o.data e.1
    rw [entitiesIn] at hc
    split at hc
    · obtain ⟨n, hn, rfl⟩ := mem_map.mp hc
      exact lt_of_lt_of_le (depth_nestedEntity (Option.mem_toList.mp hn)) hdepth
    · next elements _ hvalue =>
        obtain ⟨value, hmem, hmap⟩ := mem_filterMap.mp hc
        obtain ⟨n, hn, rfl⟩ := Option.map_eq_some_iff.mp hmap
        have hlt := depth_nestedEntity hn
        have hle := Js.depth_le_depthList hmem
        rw [hvalue, Js.depth] at hdepth
        show Js.depthEntries n.1.entries < _
        omega
    · cases hc

theorem nested_mem_occurrences {o o' c : Occurrence} (ho' : o' ∈ occurrences relations o)
    (hc : c ∈ nested relations o') : c ∈ occurrences relations o := by
  have hclosed : ∀ depth (o : Occurrence), Js.depthEntries o.data.entries < depth →
      o' ∈ occurrencesTo relations depth o → c ∈ occurrencesTo relations depth o := by
    intro depth
    induction depth with
    | zero => exact fun o hlt => absurd hlt (Nat.not_lt_zero _)
    | succ depth ih =>
      intro o hlt hmem
      rcases mem_cons.mp hmem with rfl | hmem
      · refine mem_cons_of_mem _ (mem_flatMap.mpr ⟨c, hc, ?_⟩)
        have hlt' := depth_nested hc
        cases depth with
        | zero => omega
        | succ depth => exact mem_cons_self
      · obtain ⟨m, hm, hmem⟩ := mem_flatMap.mp hmem
        have hlt' := depth_nested hm
        exact mem_cons_of_mem _ (mem_flatMap.mpr ⟨m, hm, ih m (by omega) hmem⟩)
  exact hclosed _ o (Nat.lt_succ_self _) ho'

/-! ### Merging payloads -/

theorem baseField_mergeItem (store : EntityStore) (type : String) (item : Payload)
    (type' id name : String) :
    baseField (mergeItem relations type store item.data) type' id name =
      (lastSaid relations (unrepeated relations ⟨type, item.data⟩) type' id name).getD
        (baseField store type' id name) := by
  let root : Occurrence := ⟨type, item.data⟩
  let depth := Js.depthEntries item.data.entries + 1
  let below := (belowTo relations depth [] root).1
  have hfresh := fresh_normalize type item.data
  have hroot : StoredAs relations (normalizeEntity relations type item.data).normalized root :=
    storedAs_walk hfresh item.hasId
  have hbelow : told (ofType (normalizeEntity relations type item.data).extracted type') id name =
      said relations below type' id name :=
    told_eq_said ((tracks_walk hfresh).collected type') id name
  have hunrepeated : said relations (unrepeated relations root) type' id name =
      said relations [root] type' id name ++ said relations below type' id name :=
    said_append [root] below type' id name
  show baseOf ((mergeItem relations type store item.data).entryAt type' id) name =
    _
  rw [entryAt_mergeItem, hroot.id, lastSaid, hunrepeated]
  by_cases hthis : type = type' ∧ root.id = id
  · have hnone : said relations below type' id name = [] :=
      said_below (Nat.succ_pos _) hthis.1 hthis.2 name
    rw [if_pos hthis, baseOf_mergedEntry, baseOf_entryAfter, hbelow, hnone, append_nil,
      hroot.fields]
    by_cases hvalue : root.stored relations name = .undefined
    · have hsaid : said relations [root] type' id name = [] :=
        filterMap_cons_none (if_neg fun h => h.2.2 hvalue)
      rw [if_pos hvalue, hsaid]
      rfl
    · have hsaid : said relations [root] type' id name = [root.stored relations name] :=
        filterMap_cons_some (if_pos ⟨hthis.1, hthis.2, hvalue⟩)
      rw [if_neg hvalue, hsaid]
      rfl
  · have hother : said relations [root] type' id name = [] :=
      filterMap_cons_none (if_neg fun h => hthis ⟨h.1, h.2.1⟩)
    rw [if_neg hthis, baseOf_entryAfter, hbelow, hother, nil_append]
    rfl

theorem baseField_mergeItems (items : List Payload) (store : EntityStore)
    (type type' id name : String) :
    baseField ((items.map Payload.data).foldl (mergeItem relations type) store)
        type' id name =
      (lastSaid relations (items.flatMap fun item => unrepeated relations ⟨type, item.data⟩)
        type' id name).getD (baseField store type' id name) := by
  induction items generalizing store with
  | nil => rfl
  | cons item items ih =>
    rw [map_cons, foldl_cons, ih, baseField_mergeItem, flatMap_cons,
      lastSaid_append_getD]

/-- After a merge the base of an entity holds what the unrepeated
occurrences say last. -/
theorem baseField_merge (items : List Payload) (store : EntityStore) (now : ℤ)
    (type type' id name : String) :
    baseField (store.merge relations type (items.map Payload.data) now) type' id name =
      (lastSaid relations (items.flatMap fun item => unrepeated relations ⟨type, item.data⟩)
        type' id name).getD
        (baseField (if items.isEmpty then store
          else (store.evictOrphans defaultMaxAge now).1) type' id name) := by
  cases items with
  | nil => rfl
  | cons item items => exact baseField_mergeItems (item :: items) _ type type' id name

theorem lastSaid_defined {os : List Occurrence} {type id name : String} {value : Js}
    (h : lastSaid relations os type id name = some value) : value ≠ .undefined := by
  obtain ⟨o, _, hsaid⟩ := mem_filterMap.mp (mem_of_getLast? h)
  split at hsaid
  · next hdefined => exact Option.some.inj hsaid ▸ hdefined.2.2
  · cases hsaid

theorem nothingLost_of_repeats {items : List Payload} (h : RepeatsAddNothing relations type items) :
    NothingLost relations type items := by
  intro store now type' id name value hlast
  rw [baseField_merge, h type' id name value hlast, Option.getD_some]

/-- Nothing of the payloads is lost, whatever the store holds, exactly when
the repeated occurrences add nothing to what the others say. -/
theorem repeats_add_nothing_iff (relations : Relations) (type : String) (items : List Payload) :
    NothingLost relations type items ↔ RepeatsAddNothing relations type items := by
  refine ⟨fun h type' id name value hlast => ?_, nothingLost_of_repeats⟩
  -- an empty store has nothing to fall back on
  have hbase := h empty 0 type' id name value hlast
  have hdefined := lastSaid_defined hlast
  have hempty : baseField (if items.isEmpty then empty
      else (empty.evictOrphans defaultMaxAge 0).1) type' id name =
        .undefined := by
    split <;> rfl
  rw [baseField_merge, hempty] at hbase
  cases hkept : lastSaid relations
      (items.flatMap fun item => unrepeated relations ⟨type, item.data⟩) type' id name with
  | none =>
    rw [hkept] at hbase
    exact absurd hbase.symm hdefined
  | some kept =>
    rw [hkept] at hbase
    exact congrArg some hbase

/-- A post has an author and a reviewer, and a user an organization. -/
def postRelations : Relations
  | "posts" => some (.ofList [("author", ⟨.one, "users"⟩), ("reviewer", ⟨.one, "users"⟩)])
  | "users" => some (.ofList [("org", ⟨.one, "orgs"⟩)])
  | _ => none

/-- The author of the post reviews it too. -/
def ownReview : Payload where
  data := .ofList [("id", .str "p1"),
    ("author", .obj [("id", .str "u1"), ("name", .str "Ada")]),
    ("reviewer", .obj [("id", .str "u1"), ("email", .str "ada@vertz.dev")])]
  id := "p1"
  hasId := rfl

/-- The second occurrence of the user has a field that the first has not. -/
theorem second_author_lost :
    ¬ ∀ relations type items, NothingLost relations type items := by
  intro h
  have hlost := h postRelations "posts" [ownReview] empty 0 "users" "u1" "email"
    (.str "ada@vertz.dev") rfl
  revert hlost
  decide

end Vertz.Spec
