import Vertz.Lib.Run
import Vertz.Proofs.EntityEntries

/-!
# `Vertz.Proofs.OptimisticLayers`: a rolled back layer leaves no trace

The run with the mutation and the run without it are kept side by side.
`Twins` relates the entries of the mutation's entity in the two stores:
the same base, references and orphan time, and the same layers once the
mutation's own is erased. Every other entity has one entry in both
(`Sim`).

Each operation keeps the relation: one that writes one entry by
`Sim.write`, `evictOrphans` because the entity is not evicted. Rolling
the layer back then recomputes what the entity shows from the base and
the layers of the run without the mutation.
-/

namespace Vertz.Spec

open Vertz.Ui.Store.EntityStore hiding applyLayer
open Vertz.Lib Vertz.Ui.Store EntityEntry

variable {relations : Relations} {t i m : String}

/-- The mutation's entity in the two runs: they differ in its layer and
in what is shown. -/
structure TwinEntries (m : String) (e' e : EntityEntry) : Prop where
  base : e'.base = e.base
  layers : e'.layers.erase m = e.layers
  refCount : e'.refCount = e.refCount
  orphanedAt : e'.orphanedAt = e.orphanedAt

def Twins (m : String) : Option EntityEntry → Option EntityEntry → Prop
  | none, none => True
  | some e', some e => TwinEntries m e' e
  | _, _ => False

/-- The stores of the two runs. -/
structure Sim (t i m : String) (s' s : EntityStore) : Prop where
  here : Twins m (s'.entryAt t i) (s.entryAt t i)
  other : ∀ type id, ¬ (type = t ∧ id = i) → s'.entryAt type id = s.entryAt type id

/-! ### What keeps twins twins -/

variable {e' e : EntityEntry}

section

variable (h : TwinEntries m e' e)

include h

theorem TwinEntries.recompute :
    TwinEntries m e'._recomputeVisible e._recomputeVisible where
  base := by rw [base_recompute, base_recompute, h.base]
  layers := by rw [layers_recompute, layers_recompute, h.layers]
  refCount := by rw [refCount_recompute, refCount_recompute, h.refCount]
  orphanedAt := by
    rw [orphanedAt_recompute, orphanedAt_recompute, h.orphanedAt]

theorem TwinEntries.mergeItem (item : Entity) :
    TwinEntries m (e'.mergeItem item) (e.mergeItem item) := by
  rw [EntityEntry.mergeItem, EntityEntry.mergeItem, h.base]
  by_cases hequal : shallowEqual e.base (shallowMerge e.base item) = true
  · simp only [if_pos hequal]
    exact h
  · simp only [if_neg hequal]
    refine TwinEntries.recompute ?_
    exact { base := rfl, layers := h.layers, refCount := h.refCount, orphanedAt := h.orphanedAt }

theorem TwinEntries.applyLayer {mutationId : String} (hm : mutationId ≠ m) (patch : Entity) :
    TwinEntries m (e'.applyLayer mutationId patch) (e.applyLayer mutationId patch) := by
  refine TwinEntries.recompute ?_
  exact
    { base := h.base
      layers := by
        show (e'.layers.insert mutationId patch).erase m = e.layers.insert mutationId patch
        rw [Record.erase_insert_ne hm, h.layers]
      refCount := h.refCount
      orphanedAt := h.orphanedAt }

theorem TwinEntries.rollbackLayer (mutationId : String) :
    TwinEntries m (e'.rollbackLayer mutationId) (e.rollbackLayer mutationId) := by
  refine TwinEntries.recompute ?_
  exact
    { base := h.base
      layers := by
        show (e'.layers.erase mutationId).erase m = e.layers.erase mutationId
        rw [Record.erase_comm, h.layers]
      refCount := h.refCount
      orphanedAt := h.orphanedAt }

theorem TwinEntries.commitLayer (mutationId : String) (normalized : Entity) :
    TwinEntries m (e'.commitLayer mutationId normalized) (e.commitLayer mutationId normalized) := by
  refine TwinEntries.recompute ?_
  exact
    { base := rfl
      layers := by
        show (e'.layers.erase mutationId).erase m = e.layers.erase mutationId
        rw [Record.erase_comm, h.layers]
      refCount := h.refCount
      orphanedAt := h.orphanedAt }

theorem TwinEntries.addRef : TwinEntries m e'.addRef e.addRef where
  base := h.base
  layers := h.layers
  refCount := congrArg (· + 1) h.refCount
  orphanedAt := rfl

theorem TwinEntries.removeRef (now : ℤ) :
    TwinEntries m (e'.removeRef now) (e.removeRef now) := by
  constructor
  · exact h.base
  · exact h.layers
  · show (if e'.refCount > 0 then _ else _) = _
    rw [h.refCount]
    rfl
  · show (if (if e'.refCount > 0 then _ else _) = 0 then _ else _) = _
    rw [h.refCount, h.orphanedAt]
    rfl

/-- With its layer pending an entity is evicted only if it would be
without it. -/
theorem TwinEntries.evictable {maxAge now : ℤ} (hkept : ¬ e.evictable maxAge now = true) :
    e'.evictable maxAge now = false := by
  by_contra hevict
  rw [Bool.not_eq_false, EntityEntry.evictable] at hevict
  refine hkept ?_
  rw [EntityEntry.evictable, ← h.orphanedAt, ← h.refCount, ← h.layers]
  cases horphan : e'.orphanedAt with
  | none =>
    rw [horphan] at hevict
    cases hevict
  | some orphanedAt =>
    rw [horphan] at hevict
    simp only [Bool.and_eq_true, List.isEmpty_iff] at hevict ⊢
    refine ⟨hevict.1, ?_⟩
    show e'.layers.entries.filter _ = []
    rw [hevict.2]
    rfl

end

/-! ### What keeps the stores related -/

theorem Twins.map {e' e : Option EntityEntry} (h : Twins m e' e)
    {f' f : EntityEntry → EntityEntry}
    (hf : ∀ a b : EntityEntry, TwinEntries m a b → TwinEntries m (f' a) (f b)) :
    Twins m (e'.map f') (e.map f) := by
  cases e' <;> cases e
  · trivial
  · exact h
  · exact h
  · exact hf _ _ h

/-- An operation that writes one entry, the same way in both stores. -/
theorem Sim.write {s' s w' w : EntityStore} (h : Sim t i m s' s) {type id : String}
    {f : Option EntityEntry → Option EntityEntry}
    (hw' : ∀ type' id', w'.entryAt type' id' =
      if type = type' ∧ id = id' then f (s'.entryAt type id) else s'.entryAt type' id')
    (hw : ∀ type' id', w.entryAt type' id' =
      if type = type' ∧ id = id' then f (s.entryAt type id) else s.entryAt type' id')
    (hf : type = t → id = i → ∀ a b, Twins m a b → Twins m (f a) (f b)) : Sim t i m w' w := by
  constructor
  · rw [hw', hw]
    by_cases hkey : type = t ∧ id = i
    · rw [if_pos hkey, if_pos hkey]
      have hhere := h.here
      rw [← hkey.1, ← hkey.2] at hhere
      exact hf hkey.1 hkey.2 _ _ hhere
    · rw [if_neg hkey, if_neg hkey]
      exact h.here
  · intro type' id' hne
    rw [hw', hw]
    by_cases hkey : type = type' ∧ id = id'
    · rw [if_pos hkey, if_pos hkey]
      have hother := h.other type' id' hne
      rw [← hkey.1, ← hkey.2] at hother
      rw [hother]
    · rw [if_neg hkey, if_neg hkey]
      exact h.other type' id' hne

variable {s' s : EntityStore}

section

variable (h : Sim t i m s' s)

include h

theorem Sim.modifyEntry (type id : String) {f : EntityEntry → EntityEntry}
    (hf : type = t → id = i → ∀ a b : EntityEntry, TwinEntries m a b → TwinEntries m (f a) (f b)) :
    Sim t i m (s'.modifyEntry type id f) (s.modifyEntry type id f) :=
  h.write (f := Option.map f) (entryAt_modifyEntry s' type id f)
    (entryAt_modifyEntry s type id f) fun ht hi _ _ hab => hab.map (hf ht hi)

theorem Sim.get (type id : String) :
    Sim t i m (s'.get type id).1 (s.get type id).1 := by
  refine h.write (f := fun o => some (o.getD EntityEntry.placeholder))
    (entryAt_get s' type id) (entryAt_get s type id) ?_
  intro _ _ a b hab
  cases a <;> cases b
  · exact { base := rfl, layers := rfl, refCount := rfl, orphanedAt := rfl }
  · cases hab
  · cases hab
  · exact hab

theorem Sim.mergeOne (type : String) (item : Entity) :
    Sim t i m (s'._mergeOne type item) (s._mergeOne type item) := by
  refine h.write (f := fun o => some (mergedEntry item o))
    (entryAt_mergeOne s' type item) (entryAt_mergeOne s type item) ?_
  intro _ _ a b hab
  cases a <;> cases b
  · exact { base := rfl, layers := rfl, refCount := rfl, orphanedAt := rfl }
  · cases hab
  · cases hab
  · exact TwinEntries.mergeItem hab item

theorem Sim.mergeItems (type : String) (items : List Entity) :
    Sim t i m (items.foldl (fun st item => st._mergeOne type item) s')
      (items.foldl (fun st item => st._mergeOne type item) s) := by
  induction items generalizing s' s with
  | nil => exact h
  | cons item rest ih => exact ih (h.mergeOne type item)

theorem Sim.mergeExtracted (extracted : Extracted) :
    Sim t i m (s'.mergeExtracted extracted) (s.mergeExtracted extracted) := by
  rw [EntityStore.mergeExtracted, EntityStore.mergeExtracted]
  induction extracted.entries generalizing s' s with
  | nil => exact h
  | cons e rest ih => exact ih (h.mergeItems e.1 e.2)

theorem Sim.evictOrphans {maxAge now : ℤ}
    (hkept : ∀ entry, s.entryAt t i = some entry → ¬ entry.evictable maxAge now = true) :
    Sim t i m (s'.evictOrphans maxAge now).1 (s.evictOrphans maxAge now).1 := by
  constructor
  · rw [entryAt_evictOrphans, entryAt_evictOrphans]
    have hhere := h.here
    cases he' : s'.entryAt t i with
    | none =>
      cases he : s.entryAt t i with
      | none => trivial
      | some e =>
        rw [he', he] at hhere
        exact hhere.elim
    | some e' =>
      cases he : s.entryAt t i with
      | none =>
        rw [he', he] at hhere
        exact hhere.elim
      | some e =>
        rw [he', he] at hhere
        have hkeep := hkept e he
        have hkeep' := TwinEntries.evictable hhere hkeep
        rw [Bool.not_eq_true] at hkeep
        simp only [Option.filter, hkeep', hkeep]
        exact hhere
  · intro type id hne
    rw [entryAt_evictOrphans, entryAt_evictOrphans, h.other type id hne]

theorem Sim.mergeAll (type : String) (items : List Entity) :
    Sim t i m (items.foldl (mergeItem relations type) s')
      (items.foldl (mergeItem relations type) s) := by
  induction items generalizing s' s with
  | nil => exact h
  | cons item rest ih => exact ih ((h.mergeExtracted _).mergeOne type _)

theorem Sim.commitLayer (type id mutationId : String) (serverData : Entity) :
    Sim t i m (s'.commitLayer relations type id mutationId serverData)
      (s.commitLayer relations type id mutationId serverData) := by
  have hpresent : (s'.entryAt type id).isSome = (s.entryAt type id).isSome := by
    by_cases hkey : type = t ∧ id = i
    · have hhere := h.here
      rw [hkey.1, hkey.2]
      cases he' : s'.entryAt t i <;> cases he : s.entryAt t i <;> simp only [he', he] at hhere
      · rfl
      · exact hhere.elim
      · exact hhere.elim
      · rfl
    · rw [h.other type id hkey]
  have hcommit := (h.mergeExtracted
    (normalizeEntity relations type serverData).extracted).modifyEntry type id
      (f := fun entry => entry.commitLayer mutationId
        (normalizeEntity relations type serverData).normalized)
      fun _ _ _ _ hab => hab.commitLayer mutationId _
  rw [EntityStore.commitLayer, EntityStore.commitLayer]
  cases he : s.entryAt type id with
  | none =>
    rw [he, Option.isSome_none, Option.isSome_eq_false_iff, Option.isNone_iff_eq_none] at hpresent
    rw [hpresent]
    exact h
  | some e =>
    rw [he, Option.isSome_some, Option.isSome_iff_exists] at hpresent
    obtain ⟨e', he'⟩ := hpresent
    rw [he']
    exact hcommit

/-- One operation of both runs, if it is not the mutation's own and does
not evict the entity. -/
theorem Sim.apply {op : StoreOp} (hspares : op.Spares t i m) (hkept : ¬ op.Evicts s t i) :
    Sim t i m (op.apply relations s') (op.apply relations s) := by
  cases op with
  | get type id => exact h.get type id
  | merge type items now =>
    show Sim t i m (s'.merge relations type items now) (s.merge relations type items now)
    rw [merge, merge]
    by_cases hitems : items = []
    · subst hitems
      exact h
    · have hempty : ¬ items.isEmpty = true := fun hnil => hitems (List.isEmpty_iff.mp hnil)
      rw [if_neg hempty, if_neg hempty]
      refine Sim.mergeAll (h.evictOrphans fun entry hentry hevict => ?_) type items
      exact hkept ⟨hitems, entry, hentry, hevict⟩
  | remove type id =>
    exact h.write (f := fun _ => none) (entryAt_remove s' type id)
      (entryAt_remove s type id) fun _ _ _ _ _ => trivial
  | applyLayer type id mutationId patch =>
    exact h.modifyEntry type id fun ht hi _ _ hab => hab.applyLayer (hspares ht hi) patch
  | rollbackLayer type id mutationId =>
    exact h.modifyEntry type id fun _ _ _ _ hab => hab.rollbackLayer mutationId
  | commitLayer type id mutationId serverData => exact h.commitLayer type id mutationId serverData
  | addRef type id => exact h.modifyEntry type id fun _ _ _ _ hab => hab.addRef
  | removeRef type id now => exact h.modifyEntry type id fun _ _ _ _ hab => hab.removeRef now
  | evictOrphans maxAge now =>
    exact h.evictOrphans fun entry hentry hevict => hkept ⟨entry, hentry, hevict⟩
  | setIndex queryKey ids => exact { here := h.here, other := h.other }
  | clearIndex queryKey => exact { here := h.here, other := h.other }

theorem Sim.run {ops : List StoreOp} (hspares : ∀ op ∈ ops, op.Spares t i m)
    (hkept : Along (StoreOp.apply relations) (fun st op => ¬ op.Evicts st t i) s ops) :
    Sim t i m (Spec.run relations s' ops) (Spec.run relations s ops) := by
  induction ops generalizing s' s with
  | nil => exact h
  | cons op rest ih =>
    exact ih (h.apply (hspares op List.mem_cons_self) hkept.1)
      (fun op' hop' => hspares op' (List.mem_cons_of_mem _ hop')) hkept.2

end

/-! ### The two runs -/

theorem sim_applyLayer {s : EntityStore} {layer : Layer} (hfresh : FreshLayer s layer) :
    Sim layer.type layer.id layer.mutationId
      (s.applyLayer layer.type layer.id layer.mutationId layer.patch) s := by
  constructor
  · rw [EntityStore.applyLayer, entryAt_modifyEntry, if_pos ⟨rfl, rfl⟩]
    cases he : s.entryAt layer.type layer.id with
    | none => trivial
    | some e =>
      refine { base := ?_, layers := ?_, refCount := ?_, orphanedAt := ?_ }
      · exact base_recompute _
      · show ((e.applyLayer layer.mutationId layer.patch).layers).erase layer.mutationId = e.layers
        rw [EntityEntry.applyLayer, layers_recompute, Record.erase_insert_self]
        exact Record.erase_of_get?_none (hfresh e he)
      · exact refCount_recompute _
      · exact orphanedAt_recompute _
  · intro type id hne
    have hne' : ¬ (layer.type = type ∧ layer.id = id) := fun h => hne ⟨h.1.symm, h.2.symm⟩
    rw [EntityStore.applyLayer, entryAt_modifyEntry, if_neg hne']

theorem SameValue.refl (value : Option Entity) : SameValue value value := by
  cases value with
  | none => trivial
  | some a => exact Record.Same.refl a

/-- Rolling the layer back makes twins show the same, unless the entity
is a placeholder without it. -/
theorem sameShown_rollback (h : Sim t i m s' s) (hsound' : s'.Sound) (hsound : s.Sound)
    (hplain : ¬ IsPlaceholder s t i) : SameShown (s'.rollbackLayer t i m) s := by
  intro type id
  rw [get_value, get_value, has_eq, has_eq,
    EntityStore.rollbackLayer, entryAt_modifyEntry]
  by_cases hkey : t = type ∧ i = id
  · obtain ⟨rfl, rfl⟩ := hkey
    rw [if_pos ⟨rfl, rfl⟩]
    have hhere := h.here
    cases he' : s'.entryAt t i <;> cases he : s.entryAt t i <;> rw [he', he] at hhere
    · exact ⟨trivial, rfl⟩
    · exact hhere.elim
    · exact hhere.elim
    · rename_i e' e
      have hs' := hsound' t i e' he'
      obtain ⟨_, value', hvalue', hsame'⟩ :=
        @shown_recompute { e' with layers := e'.layers.erase m } hs'.plain
          fun _ hv key hkey => absurd hkey (hs'.defined hv key)
      have hroll : (e'.rollbackLayer m).signal = some value' := hvalue'
      cases hvalue : e.signal with
      | none => exact absurd ⟨e, he, hvalue⟩ hplain
      | some value =>
        have hsame := (hsound t i e he).shown value hvalue
        rw [← hhere.base, ← hhere.layers] at hsame
        simp only [Option.map_some, Option.bind_some, hroll, hvalue]
        exact ⟨hsame'.trans hsame.symm, rfl⟩
  · have hne : ¬ (type = t ∧ id = i) := fun hk => hkey ⟨hk.1.symm, hk.2.symm⟩
    rw [if_neg hkey, h.other type id hne]
    exact ⟨SameValue.refl _, rfl⟩

/-- In every store reached on JSON data an entity shows its base
overlaid with its layers; and a mutation whose layer is rolled back
leaves no trace, provided the entity is not evicted in the run without
it and does not end there as a placeholder. -/
theorem rolled_back_layer_undone (relations : Relations) (history : List StoreOp)
    (hhistory : ∀ op ∈ history, op.Json) :
    Overlaid (run relations empty history) ∧
      ∀ (layer : Layer) (between : List StoreOp),
        FreshLayer (run relations empty history) layer →
        (∀ op ∈ between, op.Json ∧ op.Spares layer.type layer.id layer.mutationId) →
        Along (StoreOp.apply relations) (fun store op => ¬ op.Evicts store layer.type layer.id)
          (run relations empty history) between →
        ¬ IsPlaceholder (run relations empty (history ++ between))
          layer.type layer.id →
        SameShown (withLayer relations (run relations empty history) layer between)
          (run relations empty (history ++ between)) := by
  have hsound := run_sound relations sound_empty hhistory
  refine ⟨overlaid_of_sound hsound, ?_⟩
  intro layer between hfresh hbetween hkept hplain
  have hsplit : run relations empty (history ++ between) =
      run relations (run relations empty history) between := List.foldl_append
  rw [hsplit] at hplain ⊢
  have hsim := (sim_applyLayer hfresh).run (fun op hop => (hbetween op hop).2) hkept
  have hwith : (run relations ((run relations empty history).applyLayer
      layer.type layer.id layer.mutationId layer.patch) between).Sound :=
    run_sound relations (hsound.modifyEntry layer.type layer.id fun _ hentry =>
      hentry.applyLayer layer.mutationId layer.patch) fun op hop => (hbetween op hop).1
  have hwithout := run_sound relations hsound fun op hop => (hbetween op hop).1
  exact sameShown_rollback hsim hwith hwithout hplain

/-! ### Runs on one todo -/

def noRelations : Relations := fun _ => none

def todo (id title : String) : Entity := Record.ofList [("id", .str id), ("title", .str title)]

/-- A mutation that renames the todo. -/
def rename : Layer :=
  { type := "todos", id := "1", mutationId := "m_1", patch := Record.ofList [("title", .str "b")] }

/-- A second mutation completes the todo and is committed while the
first is pending; the todo is merged again in between. -/
theorem rolled_back_layer_undone_rename :
    SameShown
      (withLayer noRelations
        (run noRelations empty [.merge "todos" [todo "1" "a"] 0]) rename
        [.applyLayer "todos" "1" "m_2" (Record.ofList [("done", .bool true)]),
          .merge "todos" [todo "1" "c"] 1,
          .commitLayer "todos" "1" "m_2" (todo "1" "d")])
      (run noRelations empty
        ([.merge "todos" [todo "1" "a"] 0] ++
          [.applyLayer "todos" "1" "m_2" (Record.ofList [("done", .bool true)]),
            .merge "todos" [todo "1" "c"] 1,
            .commitLayer "todos" "1" "m_2" (todo "1" "d")])) := by
  refine (rolled_back_layer_undone noRelations [.merge "todos" [todo "1" "a"] 0] ?_).2 rename _
    ?_ ?_ ?_ ?_
  · decide +kernel
  · decide +kernel
  · decide +kernel
  · decide +kernel
  · decide +kernel

/-- Three mutations that are not undone: one whose todo would have been
evicted without it, one on a placeholder, and one on a todo with an
undefined field, whose base the store then fails to show. -/
theorem rolled_back_layer_not_undone :
    ¬ Undone noRelations
        (run noRelations empty
          [.merge "todos" [todo "1" "a"] 0, .removeRef "todos" "1" 0])
        rename [.merge "todos" [todo "2" "c"] 300000] ∧
      ¬ Undone noRelations (run noRelations empty [.get "todos" "1"]) rename [] ∧
      ¬ Undone noRelations
        (run noRelations empty
          [.merge "todos" [Record.ofList [("id", .str "1"), ("due", .undefined)]] 0])
        rename [.commitLayer "todos" "1" "m_2" (todo "1" "d")] := by
  refine ⟨fun h => ?_, fun h => ?_, fun h => ?_⟩
  · have hhas := (h.1 "todos" "1").2
    revert hhas
    decide +kernel
  · have hhas := (h.1 "todos" "1").2
    revert hhas
    decide +kernel
  · have hshown := h.2.2 "todos" "1" _ _ rfl rfl "title"
    revert hshown
    decide +kernel

end Vertz.Spec
