import Vertz.Spec.StoreRuns

/-!
# `Vertz.Proofs.LocalRemoval`: removal of an id takes it from every query

`QueryResultIndex.removeEntity` filters a bare id out of all indices, so
an entity of one type takes the id of another type's entity with it.
-/

namespace Vertz.Proofs.LocalRemoval

open Vertz.Lib Vertz.Ui.Store Vertz.Spec List

variable {typeOf : String → String} {removed : String → String → Bool}
  {before after store : EntityStore}

/-! ### Indices after removing a set of ids -/

/-- Removing ids one after the other filters each index once. -/
theorem get?_removeEntities (ids : List String) (indices : QueryResultIndex) (queryKey : String) :
    (ids.foldl QueryResultIndex.removeEntity indices).get? queryKey =
      (indices.get? queryKey).map fun listed => listed.filter fun id => !ids.contains id := by
  induction ids generalizing indices with
  | nil =>
    show indices.get? queryKey = _
    cases indices.get? queryKey <;> simp
  | cons first rest ih =>
    rw [foldl_cons, ih, QueryResultIndex.removeEntity, Record.get?_mapValues]
    cases indices.get? queryKey with
    | none => rfl
    | some listed =>
      simp only [Option.map_some, filter_filter, contains_cons, Option.some.injEq]
      apply filter_congr
      intro id _
      rw [Bool.not_or, Bool.and_comm]
      rfl

/-- A store whose indices lost the ids of the removed entities is a local
removal exactly when no such id is shared. -/
theorem local_iff (gone : List String)
    (hgone : ∀ id, id ∈ gone ↔ ∃ type, removed type id = true)
    (hentries : ∀ type id, removed type id = false →
      after.entryAt type id = before.entryAt type id)
    (hindices : after.queryIndices = gone.foldl QueryResultIndex.removeEntity before.queryIndices) :
    LocalRemoval typeOf removed before after ↔ NoSharedId typeOf removed before := by
  have hread : ∀ queryKey, after.queryIndices.get? queryKey =
      (before.queryIndices.get? queryKey).map fun listed =>
        listed.filter fun id => !gone.contains id := by
    intro queryKey
    rw [hindices, get?_removeEntities]
  constructor
  · intro hlocal queryKey ids hids id hid type hremoved
    -- an id that its own type keeps would be missing from the list
    by_contra hkept
    have hsame := hlocal.indices queryKey
    rw [hread, hids] at hsame
    simp only [Option.map_some, Option.some.injEq] at hsame
    have hmem : id ∈ keptIds removed (typeOf queryKey) ids :=
      mem_filter.mpr ⟨hid, by simpa using hkept⟩
    rw [← hsame] at hmem
    have hnot := (mem_filter.mp (mem_filter.mp hmem).1).2
    have hin : id ∈ gone := (hgone id).mpr ⟨type, hremoved⟩
    simp [hin] at hnot
  · intro hshared
    refine ⟨hentries, fun queryKey => ?_⟩
    rw [hread]
    cases hids : before.queryIndices.get? queryKey with
    | none => rfl
    | some ids =>
      simp only [Option.map_some, keptIds, filter_filter, Option.some.injEq]
      apply filter_congr
      intro id hid
      cases hown : removed (typeOf queryKey) id with
      | true => rfl
      | false =>
        have hnot : id ∉ gone := by
          intro hin
          obtain ⟨type, htype⟩ := (hgone id).mp hin
          rw [hshared queryKey ids hids id hid type htype] at hown
          cases hown
        simp [hnot]

/-! ### `remove` -/

theorem remove_missing {type id : String} (h : store.entryAt type id = none) :
    store.remove type id = store := by
  rw [EntityStore.remove, h]

theorem remove_present {type id : String} {entry : EntityEntry}
    (h : store.entryAt type id = some entry) :
    (store.remove type id).queryIndices =
      [id].foldl QueryResultIndex.removeEntity store.queryIndices := by
  rw [EntityStore.remove, h]
  show QueryResultIndex.removeEntity (store.deleteEntry type id).queryIndices id = _
  rw [EntityStore.queryIndices_deleteEntry]
  rfl

theorem remove_local_iff (type id : String) :
    LocalRemoval typeOf (onlyEntity type id) store (store.remove type id) ↔
      store.entryAt type id = none ∨ NoSharedId typeOf (onlyEntity type id) store := by
  cases hentry : store.entryAt type id with
  | none =>
    rw [remove_missing hentry]
    exact iff_of_true ⟨fun _ _ _ => rfl, fun _ => rfl⟩ (Or.inl rfl)
  | some entry =>
    have hiff : LocalRemoval typeOf (onlyEntity type id) store (store.remove type id) ↔
        NoSharedId typeOf (onlyEntity type id) store := by
      refine local_iff [id] ?_ ?_ (remove_present hentry)
      · intro id'
        simp [onlyEntity]
      · intro type' id' hother
        rw [EntityStore.entryAt_remove, if_neg]
        rintro ⟨rfl, rfl⟩
        simp [onlyEntity] at hother
    simpa using hiff

/-! ### `evictOrphans` -/

/-- The ids of the evicted entities. -/
def evictedIds (store : EntityStore) (maxAge now : ℤ) : List String :=
  store._entities.entries.flatMap fun typeMap =>
    (typeMap.2.entries.filter fun e => e.2.evictable maxAge now).map Prod.fst

theorem mem_evictedIds {maxAge now : ℤ} {id : String} :
    id ∈ evictedIds store maxAge now ↔ ∃ type, evicts store maxAge now type id = true := by
  simp only [evictedIds, mem_flatMap, mem_map, mem_filter, evicts,
    Option.any_eq_true]
  constructor
  · rintro ⟨⟨type, typeMap⟩, htype, ⟨id', entry⟩, ⟨hentry, hdue⟩, rfl⟩
    refine ⟨type, entry, ?_, hdue⟩
    rw [EntityStore.entryAt, (Record.mem_entries_iff _).mp htype]
    exact (Record.mem_entries_iff _).mp hentry
  · rintro ⟨type, entry, hentry, hdue⟩
    obtain ⟨typeMap, htype, hid⟩ := Option.bind_eq_some_iff.mp hentry
    exact ⟨(type, typeMap), (Record.mem_entries_iff _).mpr htype, (id, entry),
      ⟨(Record.mem_entries_iff _).mpr hid, hdue⟩, rfl⟩

theorem evictOrphans_local_iff (maxAge now : ℤ) :
    LocalRemoval typeOf (evicts store maxAge now) store (store.evictOrphans maxAge now).1 ↔
      NoSharedId typeOf (evicts store maxAge now) store := by
  refine local_iff (evictedIds store maxAge now) (fun id => mem_evictedIds) ?_ rfl
  intro type id hkept
  rw [EntityStore.entryAt_evictOrphans]
  cases hentry : store.entryAt type id with
  | none => rfl
  | some entry =>
    rw [evicts, hentry, Option.any_some] at hkept
    simp [Option.filter, hkept]

/-! ### Both removals -/

/-- `remove` changes only the entry it names and the indices of queries
over that type exactly when the entity is missing or no query over another
type lists its id; `evictOrphans` exactly when each id it evicts and a
query lists is evicted under the type of that query. -/
theorem removal_local_iff (typeOf : String → String) (store : EntityStore) :
    (∀ type id, LocalRemoval typeOf (onlyEntity type id) store (store.remove type id) ↔
      store.entryAt type id = none ∨
        ∀ queryKey ids, store.queryIndices.get? queryKey = some ids → id ∈ ids →
          typeOf queryKey = type) ∧
    ∀ maxAge now,
      LocalRemoval typeOf (evicts store maxAge now) store (store.evictOrphans maxAge now).1 ↔
        NoSharedId typeOf (evicts store maxAge now) store := by
  refine ⟨fun type id => ?_, fun maxAge now => evictOrphans_local_iff maxAge now⟩
  rw [remove_local_iff]
  apply or_congr_right
  constructor
  · intro hshared queryKey ids hids hid
    have hown := hshared queryKey ids hids id hid type (by simp [onlyEntity])
    simpa [onlyEntity] using hown
  · intro hown queryKey ids hids id' hid' type' hremoved
    simp only [onlyEntity, Bool.and_eq_true, beq_iff_eq] at hremoved ⊢
    rw [hremoved.2] at hid'
    exact ⟨hown queryKey ids hids hid', hremoved.2⟩

/-- A user and a post that share the id 1, and the list of posts. -/
def sharedIds : EntityStore :=
  let item : Entity := Record.ofList [("id", .str "1")]
  ((EntityStore.empty._mergeOne "users" item)._mergeOne "posts" item).setIndex "posts" ["1"]

/-- Removing the user takes the post out of the list of posts. -/
theorem remove_takes_shared_id :
    ¬ LocalRemoval id (onlyEntity "users" "1") sharedIds (sharedIds.remove "users" "1") := by
  rw [remove_local_iff]
  rintro (hmissing | hshared)
  · exact absurd (congrArg Option.isNone hmissing) (by decide)
  · have hown := hshared "posts" ["1"] (by decide) "1" (by decide) "users" (by decide)
    exact absurd hown (by decide)

end Vertz.Proofs.LocalRemoval
