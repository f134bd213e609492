import Vertz.Ui.Store.EntityStore

/-!
# `Vertz.Ui.Store.Resolve`: putting referenced entities in place of ids

`packages/ui/src/store/resolve.ts`. `resolveReferences` replaces the ids in
the relation fields of an entity by the entities of the store, and those in
their fields in turn. One set of visited keys is threaded through the whole
resolution; an entity whose key is in it is put in place as it is.

Reading the store creates placeholders for missing entities. They have no
value (`value_get`), so the store is read here and not threaded.

The source recurses until every reference is visited. Here the recursion is
on a bound, which `resolveReferences` sets by the number of values in the
store; `resolveTo_fuel` says that a larger bound changes nothing.
-/

namespace Vertz.Ui.Store

open Vertz.Lib List

/-- What a resolution carries: the visited keys, and the keys of the
entities it refers to. -/
structure Resolving where
  visit : List String := []
  refKeys : List String := []

/-- The entity is referred to, if it has a string id. -/
def Resolving.refer (s : Resolving) (entityType : String) (entity : Entity) : Resolving :=
  match field entity "id" with
  | .str id => { s with refKeys := s.refKeys.insert (entityType ++ ":" ++ id) }
  | _ => s

/-- `store.get(type, id).value`. -/
def EntityStore.value (store : EntityStore) (type id : String) : Option Entity :=
  (store.get type id).2

section Fields

variable {S : Type} (nest : String → Entity → S → Entity × S) (store : EntityStore)

/-- One element of a 'many' relation. `nest` resolves a referenced entity. -/
def resolveElement (entity : String) (acc : List Js × S) (element : Js) : List Js × S :=
  match element with
  | .str id =>
    match store.value entity id with
    | some referenced =>
      let (resolved, s) := nest entity referenced acc.2
      (acc.1 ++ [.obj resolved.entries], s)
    | none => acc
  | .obj entries => (acc.1 ++ [.obj entries], acc.2)
  | .arr elements => (acc.1 ++ [.arr elements], acc.2)
  | _ => acc

/-- One relation field of the entity. -/
def resolveField (entity : Entity) (acc : Entity × S) (e : String × RelationFieldDef) :
    Entity × S :=
  let (name, rel) := e
  match rel.type, field entity name with
  | .one, .str id =>
    match store.value rel.entity id with
    | some referenced =>
      let (resolved, s) := nest rel.entity referenced acc.2
      (acc.1.insert name (.obj resolved.entries), s)
    | none => (acc.1.insert name .null, acc.2)
  -- already denormalized
  | .one, .obj entries => (acc.1.insert name (.obj entries), acc.2)
  | .many, .arr elements =>
    let (items, s) := elements.foldl (resolveElement nest store rel.entity) ([], acc.2)
    (acc.1.insert name (.arr items), s)
  | _, _ => acc

def resolveFields (schema : RelationSchema) (entity : Entity) (s : S) : Entity × S :=
  schema.entries.foldl (resolveField nest store entity) (entity, s)

end Fields

def resolveTo (relations : Relations) (store : EntityStore) :
    ℕ → String → Entity → Resolving → Entity × Resolving
  | 0, _, entity, s => (entity, s)
  | fuel + 1, entityType, entity, s =>
    match relations entityType with
    | none => (entity, s.refer entityType entity)
    | some schema =>
      if visitKey entityType (idOf entity) ∈ s.visit then (entity, s)
      else
        let s := s.refer entityType entity
        resolveFields (resolveTo relations store fuel) store schema entity
          { s with visit := visitKey entityType (idOf entity) :: s.visit }

/-- The keys of the values in the store. -/
def EntityStore.valueKeys (store : EntityStore) : List String :=
  store._entities.entries.flatMap fun typeMap =>
    typeMap.2.entries.filterMap fun e => e.2.signal.map fun value => visitKey typeMap.1 (idOf value)

def resolveReferences (relations : Relations) (entity : Entity) (entityType : String)
    (store : EntityStore) : Entity × Resolving :=
  resolveTo relations store (store.valueKeys.length + 2) entityType entity {}

/-! ### The bound -/

theorem EntityStore.mem_valueKeys {store : EntityStore} {type id : String} {value : Entity}
    (h : store.value type id = some value) : visitKey type (idOf value) ∈ store.valueKeys := by
  rw [EntityStore.value, get_value] at h
  obtain ⟨entry, hentry, hsignal⟩ := Option.bind_eq_some_iff.mp h
  obtain ⟨typeMap, htype, hid⟩ := Option.bind_eq_some_iff.mp hentry
  refine mem_flatMap.mpr ⟨(type, typeMap), (Record.mem_entries_iff _).mpr htype, ?_⟩
  refine mem_filterMap.mpr ⟨(id, entry), (Record.mem_entries_iff _).mpr hid, ?_⟩
  rw [hsignal]
  rfl

section Invariants

variable {S : Type} {nest nest' : String → Entity → S → Entity × S} {store : EntityStore}
  {I : S → Prop}

theorem resolveElements_invariant (store : EntityStore)
    (hnest : ∀ type entity s, I s → I (nest type entity s).2)
    (entity : String) (elements : List Js) (acc : List Js × S) (h : I acc.2) :
    I (elements.foldl (resolveElement nest store entity) acc).2 := by
  refine List.foldlRecOn elements (motive := fun acc : List Js × S => I acc.2) _ h ?_
  intro acc hacc element _
  cases element with
  | str id =>
    rw [resolveElement]
    cases store.value entity id with
    | none => exact hacc
    | some referenced => exact hnest entity referenced acc.2 hacc
  | _ => exact hacc

theorem resolveField_invariant (hnest : ∀ type entity s, I s → I (nest type entity s).2)
    (entity : Entity) {acc : Entity × S} (h : I acc.2) (e : String × RelationFieldDef) :
    I (resolveField nest store entity acc e).2 := by
  obtain ⟨name, type, related⟩ := e
  cases type with
  | one =>
    cases hvalue : field entity name with
    | str id =>
      simp only [resolveField, hvalue]
      cases store.value related id with
      | none => exact h
      | some referenced => exact hnest related referenced acc.2 h
    | _ =>
      simp only [resolveField, hvalue]
      exact h
  | many =>
    cases hvalue : field entity name with
    | arr elements =>
      simp only [resolveField, hvalue]
      exact resolveElements_invariant store hnest related elements ([], acc.2) h
    | _ =>
      simp only [resolveField, hvalue]
      exact h

theorem resolveFields_invariant (hnest : ∀ type entity s, I s → I (nest type entity s).2)
    (schema : RelationSchema) (entity : Entity) {s : S} (h : I s) :
    I (resolveFields nest store schema entity s).2 :=
  List.foldlRecOn schema.entries (motive := fun acc : Entity × S => I acc.2) _ h
    fun _ hacc e _ => resolveField_invariant hnest entity hacc e

end Invariants

theorem Resolving.visit_refer (s : Resolving) (entityType : String) (entity : Entity) :
    (s.refer entityType entity).visit = s.visit := by
  rw [refer]
  split <;> rfl

theorem visit_resolveTo (relations : Relations) (store : EntityStore) (fuel : ℕ)
    (entityType : String) (entity : Entity) {s : Resolving} {key : String} (h : key ∈ s.visit) :
    key ∈ (resolveTo relations store fuel entityType entity s).2.visit := by
  induction fuel generalizing entityType entity s with
  | zero => exact h
  | succ fuel ih =>
    rw [resolveTo]
    cases relations entityType with
    | none => exact (s.visit_refer entityType entity).symm ▸ h
    | some schema =>
      simp only
      split
      · exact h
      · refine resolveFields_invariant (I := fun s : Resolving => key ∈ s.visit)
          (fun type entity s hs => ih type entity hs) schema entity ?_
        rw [Resolving.visit_refer]
        exact mem_cons_of_mem _ h

/-- How many values of the store are not visited. -/
def EntityStore.unvisited (store : EntityStore) (visit : List String) : ℕ :=
  store.valueKeys.countP (· ∉ visit)

theorem countP_notMem_mono (keys : List String) {visit visit' : List String}
    (h : ∀ key ∈ visit, key ∈ visit') : keys.countP (· ∉ visit') ≤ keys.countP (· ∉ visit) :=
  countP_mono_left fun key _ hkey => by
    rw [decide_eq_true_iff] at hkey ⊢
    exact fun hmem => hkey (h key hmem)

theorem EntityStore.unvisited_mono (store : EntityStore) {visit visit' : List String}
    (h : ∀ key ∈ visit, key ∈ visit') : store.unvisited visit' ≤ store.unvisited visit :=
  countP_notMem_mono store.valueKeys h

theorem EntityStore.unvisited_cons {store : EntityStore} {visit : List String} {key : String}
    (hkey : key ∈ store.valueKeys) (hnew : key ∉ visit) :
    store.unvisited (key :: visit) < store.unvisited visit := by
  obtain ⟨before, after, hkeys⟩ := append_of_mem hkey
  have hmono := fun keys => countP_notMem_mono keys fun k (h : k ∈ visit) =>
    mem_cons_of_mem key h
  have hbefore := hmono before
  have hafter := hmono after
  have hhead : decide (key ∉ key :: visit) = false :=
    decide_eq_false fun h => h mem_cons_self
  rw [unvisited, unvisited, hkeys, countP_append, countP_append, countP_cons,
    countP_cons, hhead, decide_eq_true hnew]
  simp only [Bool.false_eq_true, if_false, if_true]
  omega

/-- A bound that is enough for the values left to visit. -/
structure EntityStore.Enough (store : EntityStore) (fuel : ℕ) (key : String) (visit : List String) :
    Prop where
  enough : store.unvisited visit < fuel
  /-- The entity is one of the values, or the bound has one to spare. -/
  spare : key ∈ store.valueKeys ∨ store.unvisited visit + 1 < fuel

theorem EntityStore.Enough.next {store : EntityStore} {n : ℕ} {key : String} {visit : List String}
    (h : store.Enough (n + 1) key visit) (hnew : key ∉ visit) :
    store.unvisited (key :: visit) < n := by
  have henough := h.enough
  rcases h.spare with hkey | hspare
  · have hlt := EntityStore.unvisited_cons hkey hnew
    omega
  · have hle := store.unvisited_mono fun k (hk : k ∈ visit) =>
      mem_cons_of_mem key hk
    omega

theorem EntityStore.enough_resolve (store : EntityStore) (key : String) :
    store.Enough (store.valueKeys.length + 2) key [] := by
  have hle : store.unvisited [] ≤ store.valueKeys.length := countP_le_length
  exact ⟨by omega, .inr (by omega)⟩

end Vertz.Ui.Store
