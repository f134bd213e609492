import Vertz.Spec.StoreRuns

/-!
# `Vertz.Proofs.EntityEntries`: what an entry shows

`EntityEntry.Sound` is the invariant of an entry in a store that is fed
JSON data: the base has no undefined field, the last plain value is the
one the signal has, and a value that is shown reads as the base overlaid
with the layers.

`sound_recompute` is the one fact about `_recomputeVisible`: whatever
happened to the base and the layers, the signal then shows their
overlay. Every operation on an entry keeps the invariant through it.

`EntityEntry.Invariant` is what an invariant of entries has to come with,
and `run_each` carries it through the runs of a store.
-/

namespace Vertz.Ui.Store

open Vertz.Lib

namespace EntityEntry

/-- The invariant of an entry. -/
structure Sound (entry : EntityEntry) : Prop where
  base : Defined entry.base
  plain : entry.lastPlainVisible = entry.signal
  shown : ∀ value, entry.signal = some value → value.Same (overlay entry.base entry.layers)

variable {entry : EntityEntry}

/-! ### `_recomputeVisible` -/

@[simp] theorem base_recompute (entry : EntityEntry) :
    entry._recomputeVisible.base = entry.base := by
  rw [_recomputeVisible]
  split
  · rfl
  · split <;> rfl

@[simp] theorem layers_recompute (entry : EntityEntry) :
    entry._recomputeVisible.layers = entry.layers := by
  rw [_recomputeVisible]
  split
  · rfl
  · split <;> rfl

@[simp] theorem refCount_recompute (entry : EntityEntry) :
    entry._recomputeVisible.refCount = entry.refCount := by
  rw [_recomputeVisible]
  split
  · rfl
  · split <;> rfl

@[simp] theorem orphanedAt_recompute (entry : EntityEntry) :
    entry._recomputeVisible.orphanedAt = entry.orphanedAt := by
  rw [_recomputeVisible]
  split
  · rfl
  · split <;> rfl

/-- The signal shows the overlay after recomputing, if it had the last
plain value and the base has the fields that are undefined in it. -/
theorem shown_recompute (hplain : entry.lastPlainVisible = entry.signal)
    (hkept : ∀ value, entry.signal = some value → ∀ key, value.get? key = some .undefined →
      (entry.base.get? key).isSome) :
    entry._recomputeVisible.lastPlainVisible = entry._recomputeVisible.signal ∧
      ∃ value, entry._recomputeVisible.signal = some value ∧
        value.Same (overlay entry.base entry.layers) := by
  rw [_recomputeVisible]
  cases hlast : entry.lastPlainVisible with
  | none => exact ⟨rfl, _, rfl, Record.Same.refl _⟩
  | some lastPlain =>
    have hsignal : entry.signal = some lastPlain := by rw [← hplain, hlast]
    by_cases hequal : shallowEqual lastPlain (overlay entry.base entry.layers) = true
    · simp only [if_pos hequal]
      refine ⟨hplain, lastPlain, hsignal, (shallowEqual_iff fun key hkey => ?_).mp hequal⟩
      exact isSome_overlay entry.layers (hkept lastPlain hsignal key hkey)
    · simp only [if_neg hequal]
      exact ⟨trivial, _, rfl, Record.Same.refl _⟩

theorem sound_recompute (hbase : Defined entry.base)
    (hplain : entry.lastPlainVisible = entry.signal)
    (hdefined : ∀ value, entry.signal = some value → Defined value) :
    entry._recomputeVisible.Sound := by
  obtain ⟨hlast, value, hsignal, hsame⟩ := shown_recompute hplain
    fun value hvalue key hkey => absurd hkey (hdefined value hvalue key)
  refine { base := by rw [base_recompute]; exact hbase, plain := hlast, shown := ?_ }
  intro value' hvalue'
  rw [hsignal] at hvalue'
  cases hvalue'
  rw [base_recompute, layers_recompute]
  exact hsame

theorem Sound.defined (h : entry.Sound) {value : Entity} (hvalue : entry.signal = some value) :
    Defined value :=
  (h.base.overlay entry.layers).of_same (h.shown value hvalue).symm

/-! ### The operations on an entry -/

theorem sound_placeholder : placeholder.Sound where
  base := defined_empty
  plain := rfl
  shown := fun _ h => by cases h

theorem sound_ofItem {item : Entity} (h : Defined item) : (ofItem item).Sound where
  base := h
  plain := rfl
  shown := by
    intro value hvalue
    cases hvalue
    exact Record.Same.refl _

theorem Sound.mergeItem (h : entry.Sound) (item : Entity) : (entry.mergeItem item).Sound := by
  rw [EntityEntry.mergeItem]
  split
  · exact h
  · exact sound_recompute (h.base.shallowMerge item) h.plain fun value hvalue => h.defined hvalue

theorem Sound.applyLayer (h : entry.Sound) (mutationId : String) (patch : Entity) :
    (entry.applyLayer mutationId patch).Sound :=
  sound_recompute h.base h.plain fun _ hvalue => h.defined hvalue

theorem Sound.rollbackLayer (h : entry.Sound) (mutationId : String) :
    (entry.rollbackLayer mutationId).Sound :=
  sound_recompute h.base h.plain fun _ hvalue => h.defined hvalue

theorem Sound.commitLayer (h : entry.Sound) (mutationId : String) {normalized : Entity}
    (hdata : Defined normalized) : (entry.commitLayer mutationId normalized).Sound :=
  sound_recompute hdata h.plain fun _ hvalue => h.defined hvalue

theorem Sound.addRef (h : entry.Sound) : entry.addRef.Sound :=
  { base := h.base, plain := h.plain, shown := h.shown }

theorem Sound.removeRef (h : entry.Sound) (now : ℤ) : (entry.removeRef now).Sound :=
  { base := h.base, plain := h.plain, shown := h.shown }

/-- A property of the entries of a type that the operations keep, given
items with a property of their own. -/
structure Invariant (P : String → EntityEntry → Prop) (Q : String → Entity → Prop) : Prop where
  placeholder : ∀ type, P type EntityEntry.placeholder
  ofItem : ∀ type item, Q type item → P type (EntityEntry.ofItem item)
  mergeItem : ∀ type (entry : EntityEntry) item, P type entry → Q type item →
    P type (entry.mergeItem item)
  applyLayer : ∀ type (entry : EntityEntry) mutationId patch, P type entry →
    P type (entry.applyLayer mutationId patch)
  rollbackLayer : ∀ type (entry : EntityEntry) mutationId, P type entry →
    P type (entry.rollbackLayer mutationId)
  commitLayer : ∀ type (entry : EntityEntry) mutationId normalized, P type entry →
    Q type normalized → P type (entry.commitLayer mutationId normalized)
  addRef : ∀ type (entry : EntityEntry), P type entry → P type entry.addRef
  removeRef : ∀ type (entry : EntityEntry) now, P type entry → P type (entry.removeRef now)

theorem sound_invariant : Invariant (fun _ => Sound) (fun _ => Defined) where
  placeholder _ := sound_placeholder
  ofItem _ _ hitem := sound_ofItem hitem
  mergeItem _ _ item h _ := h.mergeItem item
  applyLayer _ _ mutationId patch h := h.applyLayer mutationId patch
  rollbackLayer _ _ mutationId h := h.rollbackLayer mutationId
  commitLayer _ _ mutationId _ h hdata := h.commitLayer mutationId hdata
  addRef _ _ h := h.addRef
  removeRef _ _ now h := h.removeRef now

end EntityEntry

namespace EntityStore

/-! ### The operations of the store -/

/-- Every entry of the store has the property of its type. -/
def Each (P : String → EntityEntry → Prop) (store : EntityStore) : Prop :=
  ∀ type id entry, store.entryAt type id = some entry → P type entry

/-- Every entry of the store keeps the invariant. -/
def Sound (store : EntityStore) : Prop :=
  ∀ type id entry, store.entryAt type id = some entry → entry.Sound

variable {store : EntityStore} {P : String → EntityEntry → Prop} {Q : String → Entity → Prop}

theorem each_empty : empty.Each P := fun _ _ _ h => by cases h

theorem sound_empty : empty.Sound := each_empty (P := fun _ => EntityEntry.Sound)

/-- An operation that writes one entry keeps the invariant when what it
writes has it. -/
theorem Each.write (h : store.Each P) {written : EntityStore} {type id : String}
    {f : Option EntityEntry → Option EntityEntry}
    (hwrite : ∀ type' id', written.entryAt type' id' =
      if type = type' ∧ id = id' then f (store.entryAt type id) else store.entryAt type' id')
    (hf : ∀ entry, f (store.entryAt type id) = some entry → P type entry) : written.Each P := by
  intro type' id' entry hentry
  rw [hwrite] at hentry
  by_cases hkey : type = type' ∧ id = id'
  · rw [if_pos hkey] at hentry
    exact hkey.1 ▸ hf entry hentry
  · rw [if_neg hkey] at hentry
    exact h type' id' entry hentry

theorem Each.modifyEntry (h : store.Each P) (type id : String) {f : EntityEntry → EntityEntry}
    (hf : ∀ entry : EntityEntry, P type entry → P type (f entry)) :
    (store.modifyEntry type id f).Each P := by
  refine h.write (entryAt_modifyEntry store type id f) fun entry hentry => ?_
  obtain ⟨old, hold, rfl⟩ := Option.map_eq_some_iff.mp hentry
  exact hf old (h type id old hold)

theorem Sound.modifyEntry (h : store.Sound) (type id : String) {f : EntityEntry → EntityEntry}
    (hf : ∀ entry : EntityEntry, entry.Sound → (f entry).Sound) :
    (store.modifyEntry type id f).Sound :=
  Each.modifyEntry (P := fun _ => EntityEntry.Sound) h type id hf

theorem Each.evictOrphans (h : store.Each P) (maxAge now : ℤ) :
    (store.evictOrphans maxAge now).1.Each P := by
  intro type id entry hentry
  rw [entryAt_evictOrphans, Option.filter_eq_some_iff] at hentry
  exact h type id entry hentry.1

theorem Each.remove (h : store.Each P) (type id : String) : (store.remove type id).Each P :=
  h.write (f := fun _ => none) (entryAt_remove store type id) fun _ hentry => by cases hentry

section Invariant

variable (hinv : EntityEntry.Invariant P Q)
include hinv

theorem Each.get (h : store.Each P) (type id : String) : (store.get type id).1.Each P := by
  refine h.write (f := fun o => some (o.getD EntityEntry.placeholder)) (entryAt_get store type id) ?_
  intro entry hentry
  cases hold : store.entryAt type id with
  | none =>
    rw [hold] at hentry
    cases hentry
    exact hinv.placeholder type
  | some old =>
    rw [hold] at hentry
    cases hentry
    exact h type id _ hold

theorem Each.mergeOne (h : store.Each P) (type : String) {item : Entity} (hitem : Q type item) :
    (store._mergeOne type item).Each P := by
  refine h.write (f := fun o => some (mergedEntry item o)) (entryAt_mergeOne store type item) ?_
  intro entry hentry
  cases hentry
  cases hold : store.entryAt type (idOf item) with
  | none => exact hinv.ofItem type item hitem
  | some old => exact hinv.mergeItem type old item (h type _ old hold) hitem

theorem Each.mergeExtracted (h : store.Each P) {extracted : Extracted}
    (hitems : Collects Q extracted) : (store.mergeExtracted extracted).Each P := by
  refine List.foldlRecOn extracted.entries (motive := Each P) _ h ?_
  intro s hs e he
  refine List.foldlRecOn e.2 (motive := Each P) _ hs ?_
  intro s' hs' item hitem
  exact hs'.mergeOne hinv e.1 (hitems e.1 e.2 ((Record.mem_entries_iff _).mp he) item hitem)

variable {relations : Relations}
  (hnormalized : ∀ type data, JsonEntity data →
    Q type (normalizeEntity relations type data).normalized ∧
      Collects Q (normalizeEntity relations type data).extracted)
include hnormalized

theorem Each.merge (h : store.Each P) (type : String) {items : List Entity}
    (hitems : ∀ item ∈ items, JsonEntity item) (now : ℤ) :
    (store.merge relations type items now).Each P := by
  rw [EntityStore.merge]
  split
  · exact h
  · refine List.foldlRecOn items (motive := Each P) _ (h.evictOrphans _ now) ?_
    intro s hs item hitem
    have hresult := hnormalized type item (hitems item hitem)
    exact (hs.mergeExtracted hinv hresult.2).mergeOne hinv type hresult.1

theorem Each.commitLayer (h : store.Each P) (type id mutationId : String) {serverData : Entity}
    (hdata : JsonEntity serverData) :
    (store.commitLayer relations type id mutationId serverData).Each P := by
  have hresult := hnormalized type serverData hdata
  rw [EntityStore.commitLayer]
  split
  · exact h
  · exact (h.mergeExtracted hinv hresult.2).modifyEntry type id fun entry hentry =>
      hinv.commitLayer type entry mutationId _ hentry hresult.1

end Invariant

end EntityStore

end Vertz.Ui.Store

namespace Vertz.Spec

open Vertz.Ui.Store

variable {relations : Relations} {P : String → EntityEntry → Prop} {Q : String → Entity → Prop}

variable {store : EntityStore}

/-- Every operation on JSON data keeps an invariant. -/
theorem apply_each (hinv : EntityEntry.Invariant P Q) (hnormalized : ∀ type data, JsonEntity data →
      Q type (normalizeEntity relations type data).normalized ∧
        Collects Q (normalizeEntity relations type data).extracted) (h : store.Each P)
    (op : StoreOp) (hop : op.Json) : (op.apply relations store).Each P := by
  cases op with
  | get type id => exact h.get hinv type id
  | merge type items now => exact h.merge hinv hnormalized type hop now
  | remove type id => exact h.remove type id
  | applyLayer type id mutationId patch =>
    exact h.modifyEntry type id fun entry => hinv.applyLayer type entry mutationId patch
  | rollbackLayer type id mutationId =>
    exact h.modifyEntry type id fun entry => hinv.rollbackLayer type entry mutationId
  | commitLayer type id mutationId serverData =>
    exact h.commitLayer hinv hnormalized type id mutationId hop
  | addRef type id => exact h.modifyEntry type id fun entry => hinv.addRef type entry
  | removeRef type id now => exact h.modifyEntry type id fun entry => hinv.removeRef type entry now
  | evictOrphans maxAge now => exact h.evictOrphans maxAge now
  | setIndex queryKey ids => exact h
  | clearIndex queryKey => exact h

theorem run_each (hinv : EntityEntry.Invariant P Q) (hnormalized : ∀ type data, JsonEntity data →
      Q type (normalizeEntity relations type data).normalized ∧
        Collects Q (normalizeEntity relations type data).extracted) (h : store.Each P)
    {ops : List StoreOp} (hops : ∀ op ∈ ops, op.Json) : (run relations store ops).Each P :=
  List.foldlRecOn ops (motive := EntityStore.Each P) _ h fun _ hs op hop =>
    apply_each hinv hnormalized hs op (hops op hop)

theorem run_sound (relations : Relations) (h : store.Sound) {ops : List StoreOp}
    (hops : ∀ op ∈ ops, op.Json) : (run relations store ops).Sound :=
  run_each EntityEntry.sound_invariant (fun type _ => normalizeEntity_defined relations type) h hops

theorem overlaid_of_sound (h : store.Sound) : Overlaid store :=
  fun type id entry value hentry hvalue => (h type id entry hentry).shown value hvalue

end Vertz.Spec
