import Vertz.Lib.Run
import Vertz.Proofs.EntityEntries

/-!
# `Vertz.Proofs.FailedMutations`: careful runs that fail leave no trace

The invariant of a run relates the store to the one it started from,
through the closures still pending.

* An entity (`EntityInv`) is absent in both stores; or it is present with
  the initial base and references, and its layers less the pending ones
  are the initial layers; or it is deleted, and exactly one pending
  closure holds its value.
* A query's index (`IndexInv`) is initial where no pending closure holds
  it, and otherwise the earliest closure that holds it holds the initial
  one.

A careful step keeps both (`apply_inv`), so with nothing pending the
store is untouched (`careful_run_untouched`).
-/

namespace Vertz.Spec

open Vertz.Ui.Store.EntityStore hiding rollbackLayer
open Vertz.Lib Vertz.Ui.Store List Record EntityEntry

variable {relations : Relations}

/-! ### What the pending closures hold -/

/-- The layer a closure takes off the entity. -/
def pendingLayer (type id : String) : Rollback → Option String
  | .rollbackLayer type' id' mutationId =>
    if type = type' ∧ id = id' then some mutationId else none
  | .restoreOptimistic _ _ _ _ => none

/-- The value a closure restores for the entity. -/
def heldValue (type id : String) : Rollback → Option Entity
  | .rollbackLayer _ _ _ => none
  | .restoreOptimistic type' id' entitySnapshot _ =>
    if type = type' ∧ id = id' then entitySnapshot else none

/-- The layers that are not pending. -/
def settled (pending : List String) (layers : Record Entity) : Record Entity :=
  layers.filter fun mutationId => decide (mutationId ∉ pending)

theorem settled_nil (layers : Record Entity) : settled [] layers = layers :=
  eq_of_entries (filter_eq_self.mpr fun _ _ => decide_eq_true not_mem_nil)

theorem settled_insert {pending : List String} {layers : Record Entity} {mutationId : String}
    (hfresh : layers.get? mutationId = none) (patch : Entity) :
    settled (pending ++ [mutationId]) (layers.insert mutationId patch) = settled pending layers := by
  rw [settled, filter_insert_drop (by simp)]
  refine filter_congr fun key hkey => ?_
  have hne : ¬ key = mutationId := fun h => by
    rw [h, hfresh] at hkey
    cases hkey
  simp [hne]

theorem settled_erase (l r : List String) (mutationId : String) (layers : Record Entity) :
    settled (l ++ r) (layers.erase mutationId) = settled (l ++ mutationId :: r) layers := by
  rw [settled, Record.erase, Record.filter_filter]
  refine filter_congr fun key _ => ?_
  by_cases hkey : key = mutationId <;> simp [hkey]

/-! ### Entries -/

/-- What is known of an entity when the run has got this far. -/
inductive EntityInv (relations : Relations) (type id : String) (pending : List Rollback) :
    Option EntityEntry → Option EntityEntry → Prop where
  | absent (held : pending.filterMap (heldValue type id) = []) :
      EntityInv relations type id pending none none
  | present (a e : EntityEntry) (held : pending.filterMap (heldValue type id) = [])
      (base : e.base.Same a.base) (refCount : e.refCount = a.refCount)
      (layers : settled (pending.filterMap (pendingLayer type id)) e.layers = a.layers)
      (shown : (UpToDate e ∧ UpToDate a) ∨
        (e = a ∧ pending.filterMap (pendingLayer type id) = [])) :
      EntityInv relations type id pending (some a) (some e)
  | deleted (a : EntityEntry) (value : Entity)
      (held : pending.filterMap (heldValue type id) = [value])
      (value_same : value.Same a.base) (only : OnlyBase relations type id a) :
      EntityInv relations type id pending (some a) none

theorem EntityInv.refl (type id : String) (entry : Option EntityEntry) :
    EntityInv relations type id [] entry entry := by
  cases entry with
  | none => exact .absent rfl
  | some a => exact .present a a rfl (Record.Same.refl _) rfl (settled_nil _) (.inr ⟨rfl, rfl⟩)

/-- Closures that hold nothing of the entity change nothing about it. -/
theorem EntityInv.congr {type id : String} {pending pending' : List Rollback}
    {initial entry : Option EntityEntry} (h : EntityInv relations type id pending initial entry)
    (hlayers : pending'.filterMap (pendingLayer type id) =
      pending.filterMap (pendingLayer type id))
    (hheld : pending'.filterMap (heldValue type id) = pending.filterMap (heldValue type id)) :
    EntityInv relations type id pending' initial entry := by
  cases h with
  | absent held => exact .absent (hheld.trans held)
  | present a e held base refCount layers shown =>
    refine .present a e (hheld.trans held) base refCount ?_ ?_
    · rw [hlayers]
      exact layers
    · rw [hlayers]
      exact shown
  | deleted a value held value_same only =>
    exact .deleted a value (hheld.trans held) value_same only

/-- An entry that shows its overlay shows it after its layers changed. -/
theorem UpToDate.setLayers {entry : EntityEntry} (h : UpToDate entry) (layers : Record Entity) :
    UpToDate (EntityEntry._recomputeVisible { entry with layers := layers }) := by
  obtain ⟨hplain, value, hsignal, hsame⟩ := h
  have hkept : ∀ value', entry.signal = some value' → ∀ key, value'.get? key = some .undefined →
      (entry.base.get? key).isSome := by
    intro value' hvalue' key hkey
    have hvalue : value' = value := Option.some.inj (hvalue'.symm.trans hsignal)
    rw [hvalue, hsame key] at hkey
    rw [base_of_overlay_undefined hkey]
    rfl
  have hshown := @shown_recompute { entry with layers := layers } hplain hkept
  rw [UpToDate, base_recompute, layers_recompute]
  exact hshown

theorem upToDate_ofItem (item : Entity) : UpToDate (EntityEntry.ofItem item) :=
  ⟨rfl, item, rfl, Record.Same.refl _⟩

theorem OnlyBase.shows {type id : String} {entry : EntityEntry}
    (h : OnlyBase relations type id entry) :
    ∃ value, entry.signal = some value ∧ value.Same entry.base := by
  obtain ⟨_, value, hsignal, hsame⟩ := h.upToDate
  rw [h.layers] at hsame
  exact ⟨value, hsignal, hsame⟩

/-! ### The steps, entity by entity -/

section Entities

variable {type id : String} {pending : List Rollback} {initial entry : Option EntityEntry}

theorem EntityInv.startUpdate (h : EntityInv relations type id pending initial entry)
    {mutationId : String} (patch : Entity)
    (hcareful : ∀ e, entry = some e → UpToDate e ∧ e.layers.get? mutationId = none) :
    EntityInv relations type id (pending ++ [Rollback.rollbackLayer type id mutationId]) initial
      (entry.map fun e => e.applyLayer mutationId patch) := by
  have hheld : (pending ++ [Rollback.rollbackLayer type id mutationId]).filterMap (heldValue type id) =
      pending.filterMap (heldValue type id) := by
    simp [filterMap_append, filterMap_cons, heldValue]
  have hlayers : (pending ++ [Rollback.rollbackLayer type id mutationId]).filterMap (pendingLayer type id) =
      pending.filterMap (pendingLayer type id) ++ [mutationId] := by
    simp [filterMap_append, pendingLayer]
  cases h with
  | absent held => exact .absent (hheld.trans held)
  | deleted a value held value_same only =>
    exact .deleted a value (hheld.trans held) value_same only
  | present a e held base refCount layers shown =>
    have hready := hcareful e rfl
    have hinitial : UpToDate a := by
      rcases shown with hboth | hsame
      · exact hboth.2
      · rw [← hsame.1]
        exact hready.1
    refine .present a (e.applyLayer mutationId patch) (hheld.trans held) ?_ ?_ ?_
      (.inl ⟨hready.1.setLayers _, hinitial⟩)
    · rw [EntityEntry.applyLayer, base_recompute]
      exact base
    · rw [EntityEntry.applyLayer, refCount_recompute]
      exact refCount
    · rw [hlayers, EntityEntry.applyLayer, layers_recompute,
        settled_insert hready.2, layers]

theorem EntityInv.failUpdate {l r : List Rollback} {mutationId : String}
    (h : EntityInv relations type id (l ++ Rollback.rollbackLayer type id mutationId :: r) initial entry) :
    EntityInv relations type id (l ++ r) initial
      (entry.map fun e => e.rollbackLayer mutationId) := by
  have hheld : (l ++ r).filterMap (heldValue type id) =
      (l ++ Rollback.rollbackLayer type id mutationId :: r).filterMap (heldValue type id) := by
    simp [filterMap_append, filterMap_cons, heldValue]
  have hlayers : (l ++ Rollback.rollbackLayer type id mutationId :: r).filterMap (pendingLayer type id) =
      l.filterMap (pendingLayer type id) ++ mutationId :: r.filterMap (pendingLayer type id) := by
    simp [filterMap_append, pendingLayer]
  cases h with
  | absent held => exact .absent (hheld.trans held)
  | deleted a value held value_same only =>
    exact .deleted a value (hheld.trans held) value_same only
  | present a e held base refCount layers shown =>
    rw [hlayers] at layers shown
    have hboth : UpToDate e ∧ UpToDate a := by
      refine shown.resolve_right fun hnone => ?_
      simp at hnone
    refine .present a (e.rollbackLayer mutationId) (hheld.trans held) ?_ ?_ ?_
      (.inl ⟨hboth.1.setLayers _, hboth.2⟩)
    · rw [EntityEntry.rollbackLayer, base_recompute]
      exact base
    · rw [EntityEntry.rollbackLayer, refCount_recompute]
      exact refCount
    · rw [filterMap_append, EntityEntry.rollbackLayer, layers_recompute,
        settled_erase, layers]

theorem EntityInv.startDelete (h : EntityInv relations type id pending initial entry)
    (hcareful : ∀ e, entry = some e → OnlyBase relations type id e)
    (indexSnapshot : QueryResultIndex) :
    EntityInv relations type id
      (pending ++ [Rollback.restoreOptimistic type id (entry.bind fun e => e.signal) indexSnapshot])
      initial none := by
  have hheld : ∀ snapshot : Option Entity,
      (pending ++ [Rollback.restoreOptimistic type id snapshot indexSnapshot]).filterMap
        (heldValue type id) = pending.filterMap (heldValue type id) ++ snapshot.toList := by
    intro snapshot
    cases snapshot <;> simp [filterMap_append, heldValue]
  cases h with
  | absent held => exact .absent ((hheld none).trans (by rw [held]; rfl))
  | deleted a value held value_same only =>
    exact .deleted a value ((hheld none).trans (by rw [held]; rfl)) value_same only
  | present a e held base refCount layers shown =>
    have honly := hcareful e rfl
    obtain ⟨value, hsignal, hsame⟩ := honly.shows
    have hinitial : OnlyBase relations type id a := by
      have hempty : a.layers = Record.empty := by
        rw [← layers, honly.layers]
        rfl
      have hshown : UpToDate a := by
        rcases shown with hboth | heq
        · exact hboth.2
        · rw [← heq.1]
          exact honly.upToDate
      exact
        { layers := hempty
          refCount := refCount.symm.trans honly.refCount
          upToDate := hshown
          own := (idOf_same base).symm.trans honly.own
          bare := honly.bare.of_same base }
    refine .deleted a value ?_ (hsame.trans base) hinitial
    show (pending ++ [Rollback.restoreOptimistic type id e.signal indexSnapshot]).filterMap _ = _
    rw [hheld, held, hsignal]
    rfl

theorem EntityInv.failDelete_none {l r : List Rollback} {indexSnapshot : QueryResultIndex}
    {type' id' : String}
    (h : EntityInv relations type id (l ++ Rollback.restoreOptimistic type' id' none indexSnapshot :: r)
      initial entry) : EntityInv relations type id (l ++ r) initial entry :=
  h.congr (by simp [filterMap_append, filterMap_cons, pendingLayer])
    (by simp [filterMap_append, heldValue])

/-- A closure that holds a value was started when the entity was its
base, and it is the only one that does. -/
theorem EntityInv.held {l r : List Rollback} {value : Entity} {indexSnapshot : QueryResultIndex}
    (h : EntityInv relations type id
      (l ++ Rollback.restoreOptimistic type id (some value) indexSnapshot :: r) initial entry) :
    entry = none ∧ (l ++ r).filterMap (heldValue type id) = [] ∧
      ∃ a, initial = some a ∧ value.Same a.base ∧ OnlyBase relations type id a := by
  have hheld : (l ++ Rollback.restoreOptimistic type id (some value) indexSnapshot :: r).filterMap
      (heldValue type id) =
        l.filterMap (heldValue type id) ++ value :: r.filterMap (heldValue type id) := by
    simp [filterMap_append, heldValue]
  cases h with
  | absent held => simp [hheld] at held
  | present a e held _ _ _ _ => simp [hheld] at held
  | deleted a value' held value_same only =>
    rw [hheld, append_eq_singleton_iff] at held
    rcases held with ⟨hl, hr⟩ | ⟨_, hr⟩
    · obtain ⟨hvalue, htail⟩ := List.cons.inj hr
      subst hvalue
      refine ⟨rfl, ?_, a, rfl, value_same, only⟩
      rw [filterMap_append, hl, htail]
      rfl
    · cases hr

theorem EntityInv.failDelete_some {l r : List Rollback} {value normalized : Entity}
    {indexSnapshot : QueryResultIndex}
    (h : EntityInv relations type id
      (l ++ Rollback.restoreOptimistic type id (some value) indexSnapshot :: r) initial entry)
    (hsame : normalized.Same value) :
    EntityInv relations type id (l ++ r) initial (some (EntityEntry.ofItem normalized)) := by
  obtain ⟨_, hnone, a, rfl, hvalue, only⟩ := h.held
  refine .present a _ hnone (hsame.trans hvalue) only.refCount.symm ?_
    (.inl ⟨upToDate_ofItem normalized, only.upToDate⟩)
  rw [only.layers]
  rfl

end Entities

/-! ### Query indices -/

/-- What is known of a query's index: the earliest closure that holds it
holds the initial one, which is also the current one where none does. -/
def IndexInv (queryKey : String) (pending : List Rollback)
    (initial current : Option (List String)) : Prop :=
  (pending.findSome? (restoredIndex queryKey)).or current = initial

section Indices

variable {queryKey : String} {pending : List Rollback} {initial : Option (List String)}

theorem get?_removeEntity (indices : QueryResultIndex) (entityId queryKey : String) :
    (QueryResultIndex.removeEntity indices entityId).get? queryKey =
      (indices.get? queryKey).map fun ids => ids.filter fun id => id != entityId :=
  get?_mapValues indices _ queryKey

theorem get?_snapshotEntity (indices : QueryResultIndex) (entityId queryKey : String) :
    (QueryResultIndex.snapshotEntity indices entityId).get? queryKey =
      (indices.get? queryKey).filter fun ids => ids.contains entityId :=
  get?_filterEntries indices _ queryKey

/-- Taking the id out of an index and snapshotting it leaves the initial
index with the earliest holder. -/
theorem IndexInv.startDelete {indices : QueryResultIndex}
    (h : IndexInv queryKey pending initial (indices.get? queryKey)) (type id : String)
    (entitySnapshot : Option Entity) :
    IndexInv queryKey
      (pending ++ [.restoreOptimistic type id entitySnapshot
        (QueryResultIndex.snapshotEntity indices id)]) initial
      ((QueryResultIndex.removeEntity indices id).get? queryKey) := by
  rw [IndexInv] at h ⊢
  rw [findSome?_append, get?_removeEntity]
  cases hheld : pending.findSome? (restoredIndex queryKey) with
  | some ids =>
    rw [hheld] at h
    exact h
  | none =>
    rw [hheld, Option.none_or] at h
    have hsnap : [Rollback.restoreOptimistic type id entitySnapshot
        (QueryResultIndex.snapshotEntity indices id)].findSome? (restoredIndex queryKey) =
          (indices.get? queryKey).filter fun ids => ids.contains id := by
      rw [← get?_snapshotEntity, findSome?_singleton]
      rfl
    rw [Option.none_or, hsnap, ← h]
    cases indices.get? queryKey with
    | none => rfl
    | some ids =>
      by_cases hmem : id ∈ ids
      · simp [Option.filter, hmem]
      · have hkeep : ids.filter (fun id' => id' != id) = ids := by
          refine filter_eq_self.mpr fun id' hid' => ?_
          have hne : ¬ id' = id := by
            rintro rfl
            exact hmem hid'
          simp [hne]
        simp [Option.filter, hmem, hkeep]

/-- Restoring an index keeps the initial one with the earliest holder,
if an earlier holder is pending or no other. -/
theorem IndexInv.fail {l r : List Rollback} {closure : Rollback} {current : Option (List String)}
    (h : IndexInv queryKey (l ++ closure :: r) initial current)
    (hcareful : (restoredIndex queryKey closure).isSome →
      (∃ earlier ∈ l, (restoredIndex queryKey earlier).isSome) ∨
      ∀ other ∈ l ++ r, restoredIndex queryKey other = none) :
    IndexInv queryKey (l ++ r) initial ((restoredIndex queryKey closure).or current) := by
  rw [IndexInv, findSome?_append, findSome?_cons] at h
  rw [IndexInv, findSome?_append]
  cases hclosure : restoredIndex queryKey closure with
  | none =>
    rw [hclosure] at h
    exact h
  | some ids =>
    rw [hclosure] at h
    rcases hcareful (by rw [hclosure]; rfl) with ⟨earlier, hmem, hholds⟩ | hnone
    · have hl : (l.findSome? (restoredIndex queryKey)).isSome :=
        findSome?_isSome_iff.mpr ⟨earlier, hmem, hholds⟩
      obtain ⟨first, hfirst⟩ := Option.isSome_iff_exists.mp hl
      rw [hfirst] at h ⊢
      exact h
    · have hl : l.findSome? (restoredIndex queryKey) = none :=
        findSome?_eq_none_iff.mpr fun other hmem =>
          hnone other (mem_append_left r hmem)
      have hr : r.findSome? (restoredIndex queryKey) = none :=
        findSome?_eq_none_iff.mpr fun other hmem =>
          hnone other (mem_append_right l hmem)
      rw [hl] at h
      rw [hl, hr]
      exact h

end Indices

theorem EntityInv.sameEntry {type id : String} {initial entry : Option EntityEntry}
    (h : EntityInv relations type id [] initial entry) : SameEntry entry initial := by
  cases h with
  | absent _ => trivial
  | deleted a value held _ _ => cases held
  | present a e _ base refCount layers shown =>
    refine ⟨base, ?_, refCount⟩
    rcases shown with ⟨⟨_, v, hv, hsame⟩, ⟨_, w, hw, hsame'⟩⟩ | ⟨rfl, _⟩
    · rw [hv, hw]
      have hsettled : e.layers = a.layers := (settled_nil e.layers).symm.trans layers
      rw [hsettled] at hsame
      exact (hsame.trans (same_overlay base a.layers)).trans hsame'.symm
    · cases e.signal with
      | none => trivial
      | some v => exact Record.Same.refl v

/-! ### The store's part of a delete -/

section Stores

variable {store : EntityStore}

theorem entryAt_removed (store : EntityStore) (type id type' id' : String) :
    ((store.get type id).1.removeOptimistic type id).entryAt type' id' =
      if type = type' ∧ id = id' then none else store.entryAt type' id' := by
  rw [removeOptimistic, entryAt_remove, entryAt_get]
  by_cases hkey : type = type' ∧ id = id'
  · rw [if_pos hkey, if_pos hkey]
  · rw [if_neg hkey, if_neg hkey, if_neg hkey]

theorem queryIndices_removed (store : EntityStore) (type id : String) :
    ((store.get type id).1.removeOptimistic type id).queryIndices =
      QueryResultIndex.removeEntity store.queryIndices id := by
  have hread : (store.get type id).1.entryAt type id =
      some ((store.entryAt type id).getD EntityEntry.placeholder) := by
    rw [entryAt_get, if_pos ⟨rfl, rfl⟩]
  rw [removeOptimistic, remove, hread]
  show QueryResultIndex.removeEntity ((store.get type id).1.deleteEntry type id).queryIndices id = _
  rw [queryIndices_deleteEntry, queryIndices_get]

theorem evictOrphans_none {now : ℤ} (hnone : NoOrphanDue store now) :
    (∀ type id, (store.evictOrphans defaultMaxAge now).1.entryAt type id =
      store.entryAt type id) ∧
      (store.evictOrphans defaultMaxAge now).1.queryIndices = store.queryIndices := by
  constructor
  · intro type id
    rw [entryAt_evictOrphans]
    cases hentry : store.entryAt type id with
    | none => rfl
    | some entry =>
      obtain ⟨typeMap, htype, hid⟩ := Option.bind_eq_some_iff.mp hentry
      have hkept := hnone (type, typeMap) ((mem_entries_iff _).mpr htype) (id, entry)
        ((mem_entries_iff _).mpr hid)
      simp only [Option.filter, hkept]
      rfl
  · have hevicted : (store._entities.entries.flatMap fun typeMap => (typeMap.2.entries.filter
        fun e => e.2.evictable defaultMaxAge now).map Prod.fst) = [] := by
      refine flatMap_eq_nil_iff.mpr fun typeMap htype => ?_
      rw [map_eq_nil_iff, filter_eq_nil_iff]
      intro e he hevict
      rw [hnone typeMap htype e he] at hevict
      cases hevict
    rw [evictOrphans, hevicted]
    rfl

/-- Merging an entity that holds bare ids, where it is missing and no
orphan is due, writes that one entry. -/
theorem merge_bare {type : String} {value : Entity} {now : ℤ}
    (hnone : NoOrphanDue store now)
    (hbare : Bare relations type value) (habsent : store.entryAt type (idOf value) = none) :
    ∃ normalized : Entity, normalized.Same value ∧
      (∀ type' id', (store.merge relations type [value] now).entryAt type' id' =
        if type = type' ∧ idOf value = id' then some (EntityEntry.ofItem normalized)
        else store.entryAt type' id') ∧
      (store.merge relations type [value] now).queryIndices = store.queryIndices := by
  obtain ⟨hentries, hindices⟩ := evictOrphans_none hnone
  obtain ⟨normalized, hsame, hitem⟩ := mergeItem_of_bare hbare
    (store.evictOrphans defaultMaxAge now).1
  have hmerge : store.merge relations type [value] now =
      (store.evictOrphans defaultMaxAge now).1._mergeOne type normalized := hitem
  refine ⟨normalized, hsame, ?_, ?_⟩
  · intro type' id'
    rw [hmerge, entryAt_mergeOne, idOf_same hsame, hentries, hentries, habsent]
    rfl
  · rw [hmerge, queryIndices_mergeOne, hindices]

end Stores

/-! ### Runs -/

/-- The invariant of a run from `initial`. -/
structure RunInv (relations : Relations) (initial : EntityStore) (state : InFlight) : Prop where
  entries : ∀ type id, EntityInv relations type id state.pending (initial.entryAt type id)
    (state.store.entryAt type id)
  indices : ∀ queryKey, IndexInv queryKey state.pending (initial.queryIndices.get? queryKey)
    (state.store.queryIndices.get? queryKey)

variable {initial : EntityStore} {state : InFlight}

theorem split_at {α : Type} {xs : List α} {position : ℕ} {x : α} (h : xs[position]? = some x) :
    ∃ l r, xs = l ++ x :: r ∧ xs.take position = l ∧ xs.eraseIdx position = l ++ r := by
  obtain ⟨hlt, hx⟩ := List.getElem?_eq_some_iff.mp h
  refine ⟨xs.take position, xs.drop (position + 1), ?_, rfl, eraseIdx_eq_take_drop_succ _ _⟩
  rw [← hx, ← drop_eq_getElem_cons hlt, take_append_drop]

theorem EntityInv.append_other {type' id' : String} {pending : List Rollback}
    {a e : Option EntityEntry} (h : EntityInv relations type' id' pending a e) (closure : Rollback)
    (hlayer : pendingLayer type' id' closure = none) (hheld : heldValue type' id' closure = none) :
    EntityInv relations type' id' (pending ++ [closure]) a e :=
  h.congr (by simp [filterMap_append, hlayer]) (by simp [filterMap_append, hheld])

theorem RunInv.startUpdate (h : RunInv relations initial state) {type id mutationId : String}
    (patch : Entity)
    (hcareful : ∀ entry, state.store.entryAt type id = some entry →
      UpToDate entry ∧ entry.layers.get? mutationId = none) :
    RunInv relations initial
      { store := state.store.applyLayer type id mutationId patch
        pending := state.pending ++ [.rollbackLayer type id mutationId] } := by
  constructor
  · intro type' id'
    show EntityInv relations type' id' _ _ ((state.store.applyLayer _ _ _ _).entryAt type' id')
    rw [EntityStore.applyLayer, entryAt_modifyEntry]
    by_cases hkey : type = type' ∧ id = id'
    · obtain ⟨rfl, rfl⟩ := hkey
      rw [if_pos ⟨rfl, rfl⟩]
      exact (h.entries type id).startUpdate patch hcareful
    · have hkey' : ¬ (type' = type ∧ id' = id) := fun hk => hkey ⟨hk.1.symm, hk.2.symm⟩
      rw [if_neg hkey]
      exact (h.entries type' id').append_other _ (if_neg hkey') rfl
  · intro queryKey
    show IndexInv queryKey (state.pending ++ [_]) _
      ((state.store.applyLayer type id mutationId patch).queryIndices.get? queryKey)
    rw [EntityStore.applyLayer, queryIndices_modifyEntry, IndexInv,
      findSome?_append]
    show ((state.pending.findSome? (restoredIndex queryKey)).or none).or _ = _
    rw [Option.or_none]
    exact h.indices queryKey

theorem RunInv.startDelete (h : RunInv relations initial state) {type id : String}
    (hcareful : ∀ entry, state.store.entryAt type id = some entry →
      OnlyBase relations type id entry) :
    RunInv relations initial
      { store := (state.store.get type id).1.removeOptimistic type id
        pending := state.pending ++ [.restoreOptimistic type id (state.store.get type id).2
          (QueryResultIndex.snapshotEntity (state.store.get type id).1.queryIndices id)] } := by
  rw [queryIndices_get, get_value]
  constructor
  · intro type' id'
    show EntityInv relations type' id' _ _
      (((state.store.get type id).1.removeOptimistic type id).entryAt type' id')
    rw [entryAt_removed]
    by_cases hkey : type = type' ∧ id = id'
    · obtain ⟨rfl, rfl⟩ := hkey
      rw [if_pos ⟨rfl, rfl⟩]
      exact (h.entries type id).startDelete hcareful _
    · have hkey' : ¬ (type' = type ∧ id' = id) := fun hk => hkey ⟨hk.1.symm, hk.2.symm⟩
      rw [if_neg hkey]
      exact (h.entries type' id').append_other _ rfl (if_neg hkey')
  · intro queryKey
    show IndexInv queryKey _ _
      (((state.store.get type id).1.removeOptimistic type id).queryIndices.get? queryKey)
    rw [queryIndices_removed]
    exact (h.indices queryKey).startDelete type id _

theorem RunInv.failUpdate {l r : List Rollback} {type id mutationId : String}
    (h : RunInv relations initial state)
    (hpending : state.pending = l ++ .rollbackLayer type id mutationId :: r) :
    RunInv relations initial
      { store := state.store.rollbackLayer type id mutationId, pending := l ++ r } := by
  constructor
  · intro type' id'
    have hentry := h.entries type' id'
    rw [hpending] at hentry
    show EntityInv relations type' id' _ _ ((state.store.rollbackLayer _ _ _).entryAt type' id')
    rw [EntityStore.rollbackLayer, entryAt_modifyEntry]
    by_cases hkey : type = type' ∧ id = id'
    · obtain ⟨rfl, rfl⟩ := hkey
      rw [if_pos ⟨rfl, rfl⟩]
      exact hentry.failUpdate
    · have hkey' : ¬ (type' = type ∧ id' = id) := fun hk => hkey ⟨hk.1.symm, hk.2.symm⟩
      rw [if_neg hkey]
      refine hentry.congr ?_ ?_
      · simp [filterMap_append, pendingLayer, hkey']
      · simp [filterMap_append, filterMap_cons, heldValue]
  · intro queryKey
    have hindex := h.indices queryKey
    rw [hpending] at hindex
    show IndexInv queryKey (l ++ r) _ ((state.store.rollbackLayer _ _ _).queryIndices.get? queryKey)
    rw [EntityStore.rollbackLayer, queryIndices_modifyEntry]
    exact hindex.fail fun hsome => by cases hsome

theorem RunInv.failDelete {l r : List Rollback} {type id : String} {snapshot : Option Entity}
    {indexSnapshot : QueryResultIndex} {now : ℤ} (h : RunInv relations initial state)
    (hpending : state.pending = l ++ .restoreOptimistic type id snapshot indexSnapshot :: r)
    (hnone : snapshot.isSome → NoOrphanDue state.store now)
    (hindices : ∀ queryKey ∈ indexSnapshot.keys,
      (∃ earlier ∈ l, (restoredIndex queryKey earlier).isSome) ∨
      ∀ other ∈ l ++ r, restoredIndex queryKey other = none) :
    RunInv relations initial
      { store := state.store.restoreOptimistic relations type snapshot indexSnapshot now
        pending := l ++ r } := by
  have hheldBy : ∀ type' id', EntityInv relations type' id'
      (l ++ .restoreOptimistic type id snapshot indexSnapshot :: r) (initial.entryAt type' id')
        (state.store.entryAt type' id') := by
    intro type' id'
    rw [← hpending]
    exact h.entries type' id'
  have hmerged : ∃ merged : EntityStore,
      state.store.restoreOptimistic relations type snapshot indexSnapshot now =
        { merged with queryIndices := merged.queryIndices.insertAll indexSnapshot.entries } ∧
      merged.queryIndices = state.store.queryIndices ∧
      ∀ type' id', EntityInv relations type' id' (l ++ r) (initial.entryAt type' id')
        (merged.entryAt type' id') := by
    cases snapshot with
    | none =>
      exact ⟨state.store, foldl_setIndex _ _, rfl, fun type' id' =>
        (hheldBy type' id').failDelete_none⟩
    | some value =>
      obtain ⟨habsent, _, a, _, hvalue, only⟩ := (hheldBy type id).held
      have hid : idOf value = id := (idOf_same hvalue).trans only.own
      rw [← hid] at habsent
      obtain ⟨normalized, hsame, hentries, hkept⟩ :=
        merge_bare (hnone rfl) (only.bare.of_same hvalue.symm) habsent
      refine ⟨_, foldl_setIndex _ _, hkept, fun type' id' => ?_⟩
      rw [hentries, hid]
      by_cases hkey : type = type' ∧ id = id'
      · obtain ⟨rfl, rfl⟩ := hkey
        rw [if_pos ⟨rfl, rfl⟩]
        exact (hheldBy type id).failDelete_some hsame
      · have hkey' : ¬ (type' = type ∧ id' = id) := fun hk => hkey ⟨hk.1.symm, hk.2.symm⟩
        rw [if_neg hkey]
        refine (hheldBy type' id').congr ?_ ?_
        · simp [filterMap_append, filterMap_cons, pendingLayer]
        · simp [filterMap_append, heldValue, hkey']
  obtain ⟨merged, hrestore, hkept, hentries⟩ := hmerged
  constructor
  · intro type' id'
    show EntityInv relations type' id' (l ++ r) _ ((state.store.restoreOptimistic _ _ _ _ _).entryAt _ _)
    rw [hrestore]
    exact hentries type' id'
  · intro queryKey
    show IndexInv queryKey (l ++ r) _
      ((state.store.restoreOptimistic _ _ _ _ _).queryIndices.get? queryKey)
    rw [hrestore]
    show IndexInv queryKey (l ++ r) _
      ((merged.queryIndices.insertAll indexSnapshot.entries).get? queryKey)
    rw [get?_insertAll _ _ indexSnapshot.nodup, hkept]
    have hindex := h.indices queryKey
    rw [hpending] at hindex
    exact hindex.fail fun hsome => hindices queryKey ((mem_keys_iff _).mpr hsome)

/-- A careful step keeps the invariant. -/
theorem apply_inv (h : RunInv relations initial state) (step : MutationStep)
    (hcareful : step.Careful relations state) :
    RunInv relations initial (step.apply relations state) := by
  cases step with
  | start info mutationId =>
    obtain ⟨entityType, kind, id, body⟩ := info
    have hnothing : RunInv relations initial
        { store := state.store, pending := state.pending ++ (none : Option Rollback).toList } := by
      rw [Option.toList_none, append_nil]
      exact h
    show RunInv relations initial
      { store := (OptimisticHandler.apply state.store _ mutationId).1
        pending := state.pending ++ (OptimisticHandler.apply state.store _ mutationId).2.toList }
    rw [OptimisticHandler.apply]
    cases hid : OptimisticHandler.truthyId id with
    | none => cases kind <;> exact hnothing
    | some id' =>
      cases kind with
      | create => exact hnothing
      | update =>
        cases body with
        | none => exact hnothing
        | some patch =>
          exact h.startUpdate patch fun entry hentry => hcareful id' hid entry hentry rfl
      | delete => exact h.startDelete fun entry hentry => hcareful id' hid entry hentry
  | fail position now =>
    rw [MutationStep.apply]
    cases hat : state.pending[position]? with
    | none => exact h
    | some closure =>
      obtain ⟨l, r, hpending, htake, herase⟩ := split_at hat
      show RunInv relations initial
        { store := OptimisticHandler.rollback relations state.store now closure
          pending := state.pending.eraseIdx position }
      rw [herase]
      cases closure with
      | rollbackLayer type id mutationId => exact h.failUpdate hpending
      | restoreOptimistic type id snapshot indexSnapshot =>
        have hboth : CarefulRestore state position now snapshot indexSnapshot :=
          hcareful _ hat
        rw [CarefulRestore, htake, herase] at hboth
        exact h.failDelete hpending hboth.1 hboth.2

/-- A run of careful steps in which every mutation was rolled back
leaves base values, visible values, reference counts and query indices
as they were. -/
theorem careful_run_untouched (relations : Relations) (initial : EntityStore)
    (steps : List MutationStep)
    (hcareful : Along (MutationStep.apply relations) (fun state step => step.Careful relations state)
      { store := initial, pending := [] } steps)
    (hdone : (mutationRun relations initial steps).pending = []) :
    Untouched (mutationRun relations initial steps).store initial := by
  have hinit : RunInv relations initial { store := initial, pending := [] } :=
    { entries := fun type id => EntityInv.refl type id _, indices := fun _ => rfl }
  have hinv : RunInv relations initial (mutationRun relations initial steps) :=
    Along.invariant (I := RunInv relations initial) (fun _ step hs hc => apply_inv hs step hc)
      hinit hcareful
  constructor
  · intro type id
    have hentry := hinv.entries type id
    rw [hdone] at hentry
    exact hentry.sameEntry
  · intro queryKey
    have hindex := hinv.indices queryKey
    rw [hdone] at hindex
    exact hindex

/-! ### Runs on a list of todos -/

def todoItem (id title : String) : Entity :=
  Record.ofList [("id", .str id), ("title", .str title)]

/-- Two todos that one query lists. -/
def todoList : EntityStore :=
  (empty.merge (fun _ => none) "todos" [todoItem "1" "a", todoItem "2" "b"] 0).setIndex
    "todos:list" ["1", "2"]

def renameTodo (id : String) : MutationMeta where
  entityType := "todos"
  kind := .update
  id := some id
  body := some (Record.ofList [("title", .str "c")])

def deleteTodo (id : String) : MutationMeta where
  entityType := "todos"
  kind := .delete
  id := some id
  body := none

/-- Both todos are deleted, one of them twice, and renamed in between;
the todo that was deleted first comes back after the other. -/
theorem careful_run_untouched_todos :
    Untouched
      (mutationRun (fun _ => none) todoList
        [.start (deleteTodo "1") "m_1", .start (deleteTodo "2") "m_2", .start (renameTodo "1") "m_3",
          .start (deleteTodo "1") "m_4", .fail 1 0, .start (renameTodo "2") "m_5", .fail 0 0,
          .fail 0 0, .fail 0 0, .fail 0 0]).store
      todoList :=
  careful_run_untouched (fun _ => none) todoList _ (by decide +kernel) (by decide +kernel)

/-- Three runs in which everything is rolled back and which are not
untouched: a delete started while an update of the same todo is pending
keeps the update's patch as the base; a delete loses the references to
the todo; and of two deletes rolled back in the order they were started
the second takes the first one's id out of the query's index. -/
theorem failed_mutations_leave_traces :
    ((mutationRun (fun _ => none) todoList
        [.start (renameTodo "1") "m_1", .start (deleteTodo "1") "m_2", .fail 1 0, .fail 0 0]).pending
          = [] ∧
      ¬ Untouched (mutationRun (fun _ => none) todoList
        [.start (renameTodo "1") "m_1", .start (deleteTodo "1") "m_2", .fail 1 0, .fail 0 0]).store
        todoList) ∧
    ((mutationRun (fun _ => none) (todoList.addRef "todos" "1")
        [.start (deleteTodo "1") "m_1", .fail 0 0]).pending = [] ∧
      ¬ Untouched (mutationRun (fun _ => none) (todoList.addRef "todos" "1")
        [.start (deleteTodo "1") "m_1", .fail 0 0]).store (todoList.addRef "todos" "1")) ∧
    ((mutationRun (fun _ => none) todoList
        [.start (deleteTodo "1") "m_1", .start (deleteTodo "2") "m_2", .fail 0 0, .fail 0 0]).pending
          = [] ∧
      ¬ Untouched (mutationRun (fun _ => none) todoList
        [.start (deleteTodo "1") "m_1", .start (deleteTodo "2") "m_2", .fail 0 0, .fail 0 0]).store
        todoList) := by
  refine ⟨⟨by decide +kernel, fun h => ?_⟩, ⟨by decide +kernel, fun h => ?_⟩,
    ⟨by decide +kernel, fun h => ?_⟩⟩
  · exact absurd (h.1 "todos" "1") (by decide +kernel)
  · exact absurd (h.1 "todos" "1") (by decide +kernel)
  · exact absurd (h.2 "todos:list") (by decide +kernel)

end Vertz.Spec
