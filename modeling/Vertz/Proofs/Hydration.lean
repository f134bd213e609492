import Vertz.Proofs.EntityEntries

/-!
# `Vertz.Proofs.Hydration`: what survives serializing a store

`Stored` is the invariant of an entry in a store that is fed JSON data:
its base is JSON and holds bare ids in its relation fields, so that
merging it into another store adds it as it is. `withoutLayers_shows`
says what such an entry shows once its layers are rolled back.

`Holds` says what is in a store that is being hydrated; `Holds.mergeItem`,
`Holds.mergeType` and `Holds.hydrate` add an entity, the entities of a
type and all types. `portable_round_trip` is the result.

`missing_read_hydrates_entity` is a run that only reads a missing entity.
-/

namespace Vertz.Ui.Store

open Vertz.Ui.Store.EntityEntry hiding mergeItem
open Vertz.Lib

/-! ### The entries of the original -/

namespace EntityEntry

/-- The base can be merged into another store as it is, and an entry that
shows nothing has none. -/
structure Stored (relations : Relations) (type : String) (entry : EntityEntry) : Prop where
  json : JsonEntity entry.base
  bare : Bare relations type entry.base
  plain : entry.lastPlainVisible = entry.signal
  missing : entry.signal = none → entry.base = Record.empty

/-- Recomputing keeps the last plain value that of the signal, and shows
a value. -/
theorem recompute_shows {entry : EntityEntry} (hplain : entry.lastPlainVisible = entry.signal) :
    entry._recomputeVisible.lastPlainVisible = entry._recomputeVisible.signal ∧
      entry._recomputeVisible.signal.isSome := by
  rw [_recomputeVisible]
  cases hlast : entry.lastPlainVisible with
  | none => exact ⟨rfl, rfl⟩
  | some lastPlain =>
    have hsignal : entry.signal = some lastPlain := by rw [← hplain, hlast]
    by_cases hequal : shallowEqual lastPlain (overlay entry.base entry.layers) = true
    · simp only [if_pos hequal]
      exact ⟨hplain, by rw [hsignal]; rfl⟩
    · simp only [if_neg hequal]
      exact ⟨trivial, rfl⟩

theorem stored_recompute {relations : Relations} {type : String} {entry : EntityEntry}
    (hjson : JsonEntity entry.base) (hbare : Bare relations type entry.base)
    (hplain : entry.lastPlainVisible = entry.signal) :
    Stored relations type entry._recomputeVisible := by
  obtain ⟨hlast, hsome⟩ := recompute_shows hplain
  refine { json := ?_, bare := ?_, plain := hlast, missing := fun hnone => ?_ }
  · rw [base_recompute]
    exact hjson
  · rw [base_recompute]
    exact hbare
  · rw [hnone] at hsome
    cases hsome

theorem stored_invariant (relations : Relations) :
    Invariant (Stored relations) fun type item => JsonEntity item ∧ Bare relations type item where
  placeholder type :=
    { json := fun _ _ h => by cases h
      bare := fun _ _ _ _ _ _ h => by cases h
      plain := rfl
      missing := fun _ => rfl }
  ofItem type item h :=
    { json := h.1, bare := h.2, plain := rfl, missing := fun hnone => by cases hnone }
  mergeItem type entry item h hitem := by
    rw [EntityEntry.mergeItem]
    split
    · exact h
    · exact stored_recompute (h.json.shallowMerge hitem.1) (h.bare.shallowMerge hitem.2) h.plain
  applyLayer type entry mutationId patch h := stored_recompute h.json h.bare h.plain
  rollbackLayer type entry mutationId h := stored_recompute h.json h.bare h.plain
  commitLayer type entry mutationId normalized h hdata := stored_recompute hdata.1 hdata.2 h.plain
  addRef type entry h := { json := h.json, bare := h.bare, plain := h.plain, missing := h.missing }
  removeRef type entry now h :=
    { json := h.json, bare := h.bare, plain := h.plain, missing := h.missing }

end EntityEntry

end Vertz.Ui.Store

namespace Vertz.Spec

open Vertz.Ui.Store.EntityEntry hiding mergeItem
open Vertz.Ui.Store.EntityStore
open Option
open Vertz.Lib Vertz.Ui.Store List

variable {relations : Relations}

theorem run_stored (relations : Relations) {ops : List StoreOp} (hops : ∀ op ∈ ops, op.Json) :
    (run relations empty ops).Each (EntityEntry.Stored relations) := by
  refine run_each (stored_invariant relations) ?_ each_empty hops
  intro type data hdata
  have hjson := normalizeEntity_json relations type hdata
  have hbare : Bare relations type (normalizeEntity relations type data).normalized ∧ _ :=
    normalizeEntity_bare type data
  refine ⟨⟨hjson.1, hbare.1⟩, fun type' items hitems item hitem => ?_⟩
  exact ⟨hjson.2 type' items hitems item hitem, hbare.2 type' items hitems item hitem⟩

/-- Rolling back layers one by one keeps the base and an entry sound, and
leaves the other layers. -/
theorem foldl_rollbackLayer {keys : List String} {entry : EntityEntry} (h : entry.Sound) :
    (keys.foldl rollbackLayer entry).Sound ∧
      (keys.foldl rollbackLayer entry).base = entry.base ∧
      (entry.signal.isSome → (keys.foldl rollbackLayer entry).signal.isSome) ∧
      ∀ key, (keys.foldl rollbackLayer entry).layers.get? key =
        if key ∈ keys then none else entry.layers.get? key := by
  induction keys generalizing entry with
  | nil => exact ⟨h, rfl, id, fun key => by simp⟩
  | cons k keys ih =>
    obtain ⟨hsound, hbase, hshown, hlayers⟩ := ih (h.rollbackLayer k)
    rw [foldl_cons]
    refine ⟨hsound, ?_, fun _ => hshown ?_, fun key => ?_⟩
    · rw [hbase]
      exact base_recompute _
    · have hplain : ({ entry with layers := entry.layers.erase k } : EntityEntry).lastPlainVisible =
          ({ entry with layers := entry.layers.erase k } : EntityEntry).signal := h.plain
      exact (recompute_shows hplain).2
    · have hrolled : (entry.rollbackLayer k).layers = entry.layers.erase k :=
        layers_recompute _
      rw [hlayers, hrolled, Record.get?_erase]
      by_cases hkey : key = k <;> simp [hkey]

theorem withoutLayers_shows {entry : EntityEntry} (h : entry.Sound)
    (hsome : entry.signal.isSome) :
    ∃ value, (withoutLayers entry).signal = some value ∧ value.Same entry.base := by
  obtain ⟨hsound, hbase, hshown, hlayers⟩ := @foldl_rollbackLayer entry.layers.keys entry h
  obtain ⟨value, hvalue⟩ := isSome_iff_exists.mp (hshown hsome)
  have hnone : ∀ key, (withoutLayers entry).layers.get? key = none := by
    intro key
    refine (hlayers key).trans ?_
    split
    · rfl
    · next hkey => exact not_isSome_iff_eq_none.mp fun hs => hkey ((Record.mem_keys_iff _).mpr hs)
  have hempty : (withoutLayers entry).layers.entries = [] := by
    refine eq_nil_iff_forall_not_mem.mpr fun e he => ?_
    have hget := ((withoutLayers entry).layers.mem_entries_iff).mp he
    rw [hnone] at hget
    cases hget
  refine ⟨value, hvalue, ?_⟩
  have hsame := hsound.shown value hvalue
  change value.Same (overlay (withoutLayers entry).base (withoutLayers entry).layers) at hsame
  rw [overlay, hempty] at hsame
  exact hbase ▸ hsame

/-! ### The store that is hydrated -/

/-- An entry is what merging a base adds. -/
def AddedFrom (entry : Option EntityEntry) : Option Entity → Prop
  | none => entry = none
  | some base => ∃ item, entry = some (ofItem item) ∧ item.Same base

/-- The store has the entities of a table. -/
def Holds (store : EntityStore) (table : String → String → Option Entity) : Prop :=
  ∀ type id, AddedFrom (store.entryAt type id) (table type id)

namespace Holds

variable {store : EntityStore} {table : String → String → Option Entity}

section

variable (h : Holds store table)

include h

theorem entryAt_none {type id : String} (hnone : table type id = none) :
    store.entryAt type id = none := by
  have hread := h type id
  rwa [hnone] at hread

theorem congr {table' : String → String → Option Entity}
    (heq : ∀ type id, table' type id = table type id) : Holds store table' := by
  intro type id
  rw [heq]
  exact h type id

theorem of_entryAt {store' : EntityStore}
    (heq : ∀ type id, store'.entryAt type id = store.entryAt type id) : Holds store' table := by
  intro type id
  rw [heq]
  exact h type id

theorem evictOrphans (maxAge now : ℤ) :
    Holds (store.evictOrphans maxAge now).1 table := by
  refine h.of_entryAt fun type id => ?_
  rw [entryAt_evictOrphans]
  have hread := h type id
  cases htable : table type id with
  | none =>
    rw [htable] at hread
    rw [hread]
    rfl
  | some base =>
    rw [htable] at hread
    obtain ⟨item, hentry, -⟩ := hread
    rw [hentry]
    rfl

/-- Merging a bare entity that is not there adds it. -/
theorem mergeItem {type : String} {base : Entity} (hbare : Bare relations type base)
    (hnew : table type (idOf base) = none) :
    Holds (mergeItem relations type store base)
      (fun t i => if t = type ∧ i = idOf base then some base else table t i) := by
  obtain ⟨normalized, hsame, hmerged⟩ := mergeItem_of_bare hbare store
  intro t i
  show AddedFrom _ (if t = type ∧ i = idOf base then some base else table t i)
  rw [hmerged, entryAt_mergeOne, idOf_same hsame]
  by_cases hkey : t = type ∧ i = idOf base
  · rw [if_pos hkey, if_pos ⟨hkey.1.symm, hkey.2.symm⟩, h.entryAt_none hnew]
    exact ⟨normalized, rfl, hsame⟩
  · rw [if_neg hkey, if_neg fun hk => hkey ⟨hk.1.symm, hk.2.symm⟩]
    exact h t i

/-- Merging entities that carry their ids adds them all. -/
theorem mergeItems {type : String} {es : List (String × Entity)} (hnodup : (es.map Prod.fst).Nodup)
    (hes : ∀ e ∈ es, Bare relations type e.2 ∧ idOf e.2 = e.1 ∧ table type e.1 = none) :
    Holds ((es.map Prod.snd).foldl (EntityStore.mergeItem relations type) store)
      (fun t i => if t = type then (Record.lookup i es).or (table t i) else table t i) := by
  induction es generalizing store table with
  | nil =>
    refine h.congr fun t i => ?_
    split <;> rfl
  | cons e es ih =>
    obtain ⟨id, base⟩ := e
    rw [map_cons, nodup_cons] at hnodup
    obtain ⟨hbare, hid, hnew⟩ := hes _ mem_cons_self
    change idOf base = id at hid
    have hmerged := h.mergeItem hbare (by rw [hid]; exact hnew)
    rw [hid] at hmerged
    have hrest := ih hmerged hnodup.2 fun e he => by
      obtain ⟨hbare', hid', hnew'⟩ := hes e (mem_cons_of_mem _ he)
      have hne : e.1 ≠ id := fun heq => hnodup.1 (mem_map.mpr ⟨e, he, heq⟩)
      exact ⟨hbare', hid', (if_neg fun hk => hne hk.2).trans hnew'⟩
    refine hrest.congr fun t i => ?_
    by_cases ht : t = type
    · by_cases hi : id = i
      · subst hi
        have hout : Record.lookup id es = none := by
          rw [← not_isSome_iff_eq_none, Record.lookup_isSome_iff]
          exact hnodup.1
        simp [ht, Record.lookup, hout]
      · simp [ht, Record.lookup, hi, Ne.symm hi]
    · simp [ht]

theorem merge {type : String} {es : List (String × Entity)} (hnodup : (es.map Prod.fst).Nodup)
    (hes : ∀ e ∈ es, Bare relations type e.2 ∧ idOf e.2 = e.1 ∧ table type e.1 = none) (now : ℤ) :
    Holds (store.merge relations type (es.map Prod.snd) now)
      (fun t i => if t = type then (Record.lookup i es).or (table t i) else table t i) := by
  rw [EntityStore.merge]
  split
  · next hempty =>
      have hnil : es = [] := by simpa using hempty
      subst hnil
      exact h.mergeItems hnodup hes
  · exact (h.evictOrphans _ now).mergeItems hnodup hes

theorem hydrateTypes {types : List (String × Record Entity)} (hnodup : (types.map Prod.fst).Nodup)
    (htypes : ∀ type ∈ types, ∀ e ∈ type.2.entries, Bare relations type.1 e.2 ∧ idOf e.2 = e.1 ∧ table type.1 e.1 = none)
    (now : ℤ) :
    Holds (types.foldl
        (fun s e => s.merge relations e.1 (e.2.entries.map Prod.snd) now) store)
      (fun t i => ((Record.lookup t types).bind fun type => type.get? i).or (table t i)) := by
  induction types generalizing store table with
  | nil => exact h
  | cons e types ih =>
    obtain ⟨name, type⟩ := e
    rw [map_cons, nodup_cons] at hnodup
    have hmerged := h.merge type.nodup (htypes _ mem_cons_self) now
    have hrest := ih hmerged hnodup.2 fun type' htype' e he => by
      obtain ⟨hbare, hid, hnew⟩ := htypes type' (mem_cons_of_mem _ htype') e he
      have hne : type'.1 ≠ name := fun heq => hnodup.1 (mem_map.mpr ⟨type', htype', heq⟩)
      exact ⟨hbare, hid, (if_neg hne).trans hnew⟩
    refine hrest.congr fun t i => ?_
    by_cases ht : name = t
    · subst ht
      have hout : Record.lookup name types = none := by
        rw [← not_isSome_iff_eq_none, Record.lookup_isSome_iff]
        exact hnodup.1
      simp [Record.lookup, hout, Record.get?]
    · simp [Record.lookup, ht, Ne.symm ht]

end

end Holds

/-! ### The round trip -/

section RoundTrip

variable {store : EntityStore}

theorem entityThroughJson_of_json {entity : Entity} (h : JsonEntity entity) :
    entityThroughJson entity = entity := by
  have hjson : Js.isJsonEntries entity.entries = true :=
    Js.isJsonEntries_iff.mpr fun e he => h e.1 e.2 ((entity.mem_entries_iff).mp he)
  rw [entityThroughJson, Js.throughJsonEntries_of_isJson _ hjson]
  exact Record.eq_of_entries (Record.entries_ofList entity.nodup)

theorem Portable.entry (h : Portable store) {type id : String} {entry : EntityEntry}
    (hentry : store.entryAt type id = some entry) :
    field entry.base "id" = .str id ∧ type ≠ "__proto__" ∧ id ≠ "__proto__" := by
  obtain ⟨typeMap, htype, hid⟩ := bind_eq_some_iff.mp hentry
  exact h.entities (type, typeMap) ((Record.mem_entries_iff _).mpr htype) (id, entry)
    ((Record.mem_entries_iff _).mpr hid)

/-- Leaving out an empty record leaves out nothing. -/
theorem bind_nonempty (record : Record Entity) (id : String) :
    ((if record.keys.length > 0 then some record else none).bind fun r => r.get? id)
      = record.get? id := by
  split
  · rfl
  · next hempty =>
      refine (not_isSome_iff_eq_none.mp fun hsome => hempty ?_).symm
      exact length_pos_of_mem ((record.mem_keys_iff).mpr hsome)

theorem dehydrate_entity (store : EntityStore) (type id : String) :
    (store.dehydrate.entities.get? type).bind (fun typeEntities => typeEntities.get? id) =
      if type = "__proto__" ∨ id = "__proto__" then none
      else (store.entryAt type id).map fun entry => entry.base := by
  rw [dehydrate, get?_collect, entryAt]
  by_cases htype : type = "__proto__"
  · simp [htype]
  · cases store._entities.get? type with
    | none => simp [htype]
    | some typeMap =>
      simp only [htype, if_false, false_or, bind_some, bind_nonempty, get?_collect]
      cases typeMap.get? id <;> rfl

theorem carried_entity (hstored : store.Each (EntityEntry.Stored relations))
    (hportable : Portable store) (type id : String) :
    (store.dehydrate.throughJson.entities.get? type).bind
        (fun typeEntities => typeEntities.get? id) =
      (store.entryAt type id).map fun entry => entry.base := by
  have hread := dehydrate_entity store type id
  have hjson : (store.dehydrate.throughJson.entities.get? type).bind
        (fun typeEntities => typeEntities.get? id) =
      ((store.dehydrate.entities.get? type).bind
        (fun typeEntities => typeEntities.get? id)).map entityThroughJson := by
    rw [SerializedStore.throughJson, Record.get?_mapValues]
    cases store.dehydrate.entities.get? type with
    | none => rfl
    | some typeEntities => exact Record.get?_mapValues typeEntities _ id
  rw [hjson, hread]
  cases hentry : store.entryAt type id with
  | none => split <;> rfl
  | some entry =>
    obtain ⟨-, htype, hid⟩ := hportable.entry hentry
    rw [if_neg (not_or.mpr ⟨htype, hid⟩)]
    show some (entityThroughJson entry.base) = some entry.base
    rw [entityThroughJson_of_json (hstored type id entry hentry).json]

/-- The store hydrated from a portable store has its bases. -/
theorem holds_rehydrated (hstored : store.Each (EntityEntry.Stored relations))
    (hportable : Portable store) (now : ℤ) :
    Holds (rehydrated relations store now)
      (fun type id => (store.entryAt type id).map fun entry => entry.base) := by
  have hempty : Holds empty fun _ _ => none := fun _ _ => rfl
  have hmerged := @Holds.hydrateTypes relations _ _ hempty
    store.dehydrate.throughJson.entities.entries
    store.dehydrate.throughJson.entities.nodup
    (fun type htype e he => by
      have hget : (store.dehydrate.throughJson.entities.get? type.1).bind
          (fun typeEntities => typeEntities.get? e.1) = some e.2 := by
        rw [((Record.mem_entries_iff _).mp htype : _ = some type.2)]
        exact (Record.mem_entries_iff _).mp he
      rw [carried_entity hstored hportable] at hget
      obtain ⟨entry, hentry, hbase⟩ := map_eq_some_iff.mp hget
      have hid := (hportable.entry hentry).1
      rw [hbase] at hid
      refine ⟨hbase ▸ (hstored type.1 e.1 entry hentry).bare, ?_, rfl⟩
      rw [idOf, hid]) now
  have hindexed : ∀ type id, (rehydrated relations store now).entryAt type id =
      (store.dehydrate.throughJson.entities.entries.foldl
        (fun s e => s.merge relations e.1 (e.2.entries.map Prod.snd) now)
        empty).entryAt type id := by
    intro type id
    rw [rehydrated, hydrate]
    cases store.dehydrate.throughJson.queries with
    | none => rfl
    | some queries => simp only [foldl_setIndex]; rfl
  refine (hmerged.of_entryAt hindexed).congr fun type id => ?_
  rw [← carried_entity hstored hportable, or_none]
  rfl

theorem queryIndices_merge {store : EntityStore} (h : store.queryIndices = Record.empty)
    (type : String) (items : List Entity) (now : ℤ) :
    (store.merge relations type items now).queryIndices = Record.empty := by
  have hone : ∀ s : EntityStore, s.queryIndices = Record.empty → ∀ items' : List Entity,
      ∀ type', (items'.foldl (fun s' item => s'._mergeOne type' item) s).queryIndices
        = Record.empty := by
    intro s hs items' type'
    refine List.foldlRecOn items' (motive := fun s' : EntityStore => s'.queryIndices = Record.empty)
      _ hs ?_
    intro s' hs' item _
    rw [queryIndices_mergeOne, hs']
  rw [EntityStore.merge]
  split
  · exact h
  · refine List.foldlRecOn items (motive := fun s : EntityStore => s.queryIndices = Record.empty)
      _ ?_ ?_
    · refine List.foldlRecOn _ (motive := fun indices : QueryResultIndex => indices = Record.empty)
        _ h ?_
      intro indices hindices id _
      rw [hindices]
      rfl
    · intro s hs item _
      rw [mergeItem, queryIndices_mergeOne, mergeExtracted]
      refine List.foldlRecOn _ (motive := fun s : EntityStore => s.queryIndices = Record.empty)
        _ hs ?_
      intro s' hs' e _
      exact hone s' hs' e.2 e.1

theorem queryIndices_rehydrated (relations : Relations) (hportable : Portable store) (now : ℤ)
    (queryKey : String) :
    (rehydrated relations store now).queryIndices.get? queryKey
      = store.queryIndices.get? queryKey := by
  have hmerged : (store.dehydrate.throughJson.entities.entries.foldl
      (fun s e => s.merge relations e.1 (e.2.entries.map Prod.snd) now)
      empty).queryIndices = Record.empty := by
    refine List.foldlRecOn _ (motive := fun s : EntityStore => s.queryIndices = Record.empty)
      _ rfl ?_
    intro s hs e _
    exact queryIndices_merge hs e.1 _ now
  have hcollected : (collect store.queryIndices some).get? queryKey
      = store.queryIndices.get? queryKey := by
    rw [get?_collect]
    cases hget : store.queryIndices.get? queryKey with
    | none => split <;> rfl
    | some ids =>
      rw [if_neg (hportable.queries (queryKey, ids) ((Record.mem_entries_iff _).mpr hget))]
      rfl
  rw [rehydrated, hydrate, ← hcollected]
  have hqueries : store.dehydrate.throughJson.queries =
    if (collect store.queryIndices some).keys.length > 0
    then some (collect store.queryIndices some) else none := rfl
  rw [hqueries]
  by_cases hsome : (collect store.queryIndices some).keys.length > 0
  · simp only [if_pos hsome]
    rw [foldl_setIndex, hmerged]
    show (Record.empty.insertAll _).get? queryKey = _
    rw [Record.get?_insertAll _ _ (collect store.queryIndices some).nodup, Record.get?_empty,
      or_none]
    rfl
  · simp only [if_neg hsome]
    rw [hmerged, Record.get?_empty]
    refine (not_isSome_iff_eq_none.mp fun hs => hsome ?_).symm
    exact length_pos_of_mem ((Record.mem_keys_iff _).mpr hs)

/-- An entity of the portable store comes back with its confirmed value,
and nothing comes back where there was none. -/
theorem rehydrated_entry (hstored : store.Each (EntityEntry.Stored relations))
    (hsound : store.Sound) (hportable : Portable store) (now : ℤ) (type id : String) :
    ((rehydrated relations store now).entryAt type id = none ∧
        confirmedValue store type id = none) ∨
      ∃ item value,
        (rehydrated relations store now).entryAt type id = some (ofItem item) ∧
        confirmedValue store type id = some value ∧ item.Same value := by
  have hread : AddedFrom ((rehydrated relations store now).entryAt type id)
      ((store.entryAt type id).map fun entry => entry.base) :=
    holds_rehydrated hstored hportable now type id
  cases hentry : store.entryAt type id with
  | none =>
    rw [hentry] at hread
    exact .inl ⟨hread, by rw [confirmedValue, hentry]; rfl⟩
  | some entry =>
    rw [hentry] at hread
    obtain ⟨item, hitem, hsame⟩ := hread
    -- The base has an id, so the entry is no placeholder.
    have hsome : entry.signal.isSome := by
      by_contra hnone
      have hbase := (hstored type id entry hentry).missing (not_isSome_iff_eq_none.mp hnone)
      have hid := (hportable.entry hentry).1
      rw [hbase] at hid
      cases hid
    obtain ⟨value, hvalue, hsame'⟩ := withoutLayers_shows (hsound type id entry hentry) hsome
    exact .inr ⟨item, value, hitem, by rw [confirmedValue, hentry]; exact hvalue,
      hsame.trans hsame'.symm⟩

end RoundTrip

/-- A store that was fed JSON and is portable comes back from its
serialized form. -/
theorem portable_round_trip (relations : Relations) (ops : List StoreOp)
    (hops : ∀ op ∈ ops, op.Json) (hportable : Portable (run relations empty ops))
    (now : ℤ) : RoundTrip relations (run relations empty ops) now := by
  have hentries := rehydrated_entry (run_stored relations hops)
    (run_sound relations sound_empty hops) hportable now
  refine { shown := ?_, noOther := ?_, indices := queryIndices_rehydrated relations hportable now }
  · intro type id
    rw [get_value, has_eq]
    rcases hentries type id with ⟨hmissing, hvalue⟩ | ⟨item, value, hitem, hvalue, hsame⟩
    · rw [hmissing, hvalue]
      exact ⟨trivial, rfl⟩
    · rw [hitem, hvalue]
      exact ⟨hsame, rfl⟩
  · intro type id hpresent
    rcases hentries type id with ⟨hmissing, -⟩ | ⟨item, value, -, hvalue, -⟩
    · rw [hmissing] at hpresent
      cases hpresent
    · rw [hvalue]
      rfl

/-- Projects have an owner. -/
def ownedProjects : Relations
  | "projects" => some (Record.ofList [("owner", ⟨.one, "users"⟩)])
  | _ => none

/-- A project is merged with its owner, patched, indexed and read. -/
theorem portable_round_trip_project :
    RoundTrip ownedProjects
      (run ownedProjects empty
        [.merge "projects" [Record.ofList [("id", .str "p1"),
            ("owner", .obj [("id", .str "u1"), ("name", .str "Ada")])]] 0,
          .applyLayer "projects" "p1" "m1" (Record.ofList [("name", .str "Draft")]),
          .setIndex "projects" ["p1"], .get "users" "u1"]) 5 :=
  portable_round_trip ownedProjects _ (by decide) (by decide +kernel) 5

/-- A missing entity is read. The placeholder is serialized as `{}`, and
hydrating it adds an entity whose key is `undefined`. -/
theorem missing_read_hydrates_entity :
    ¬ ∀ (relations : Relations) (ops : List StoreOp) (now : ℤ), (∀ op ∈ ops, op.Json) →
      RoundTrip relations (run relations empty ops) now := by
  intro h
  have htrip := h (fun _ => none) [.get "todos" "1"] 0 (by decide)
  exact absurd (htrip.noOther "todos" "undefined" (by decide)) (by decide)

/-- An update is committed with the data of another id. -/
example : ¬ (has (rehydrated (fun _ => none)
    (run (fun _ => none) empty
      [.merge "todos" [Record.ofList [("id", .str "tmp")]] 0,
        .commitLayer "todos" "tmp" "m1" (Record.ofList [("id", .str "1")])]) 0)
      "todos" "tmp" = true) := by decide

end Vertz.Spec
