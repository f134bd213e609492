import Vertz.Spec.StoreRuns

/-!
# `Vertz.Proofs.References`: which references are resolved alike

Two ways to resolve referenced entities give the same entity exactly when
they agree on every reference in it (`resolveFields_eq_iff`), each with
what it has carried so far. One way threads the visited keys, the other
knows the ancestors only.

`shared_flat_iff` compares them over all of a resolution. In
`second_reference_raw` a post has one author and reviewer.
-/

namespace Vertz.Spec

open Vertz.Lib Vertz.Ui.Store List

/-! ### One level of references -/

section Level

variable {S S' : Type} {nest : String → Entity → S → Entity × S}
  {nest' : String → Entity → S' → Entity × S'} {store : EntityStore}

/-- What has been carried through some references. -/
def threaded (nest : String → Entity → S → Entity × S) (cs : List Occurrence) (s : S) : S :=
  cs.foldl (fun s c => (nest c.type c.data s).2) s

/-- Two ways to resolve agree on some references. -/
def Agree (nest : String → Entity → S → Entity × S) (nest' : String → Entity → S' → Entity × S') :
    List Occurrence → S → S' → Prop
  | [], _, _ => True
  | c :: cs, s, s' =>
    (nest c.type c.data s).1 = (nest' c.type c.data s').1 ∧
      Agree nest nest' cs (nest c.type c.data s).2 (nest' c.type c.data s').2

theorem threaded_append (cs ds : List Occurrence) (s : S) :
    threaded nest (cs ++ ds) s = threaded nest ds (threaded nest cs s) := foldl_append

variable {s : S}

theorem agree_append {cs ds : List Occurrence} {s' : S'} :
    Agree nest nest' (cs ++ ds) s s' ↔
      Agree nest nest' cs s s' ∧ Agree nest nest' ds (threaded nest cs s) (threaded nest' cs s') := by
  induction cs generalizing s s' with
  | nil => exact (iff_of_eq (true_and _)).symm
  | cons c cs ih =>
    show _ ∧ Agree nest nest' (cs ++ ds) _ _ ↔ (_ ∧ _) ∧ _
    rw [ih, and_assoc]
    rfl

/-- What an element of a 'many' relation is resolved to. -/
def resolvedElement (nest : String → Entity → S → Entity × S) (store : EntityStore)
    (type : String) (element : Js) (s : S) : List Js :=
  (resolveElement nest store type ([], s) element).1

theorem resolveElement_eq (type : String) (acc : List Js × S) (element : Js) :
    resolveElement nest store type acc element =
      (acc.1 ++ resolvedElement nest store type element acc.2,
        threaded nest (referredElement store type element) acc.2) := by
  cases element with
  | str id =>
    rw [resolvedElement, resolveElement, resolveElement, referredElement]
    cases store.value type id with
    | none => exact Prod.ext (append_nil _).symm rfl
    | some referenced => rfl
  | obj entries => rfl
  | arr elements => rfl
  | _ => exact Prod.ext (append_nil _).symm rfl

theorem resolvedElement_length (type : String) (element : Js) (s : S) (s' : S') :
    (resolvedElement nest store type element s).length =
      (resolvedElement nest' store type element s').length := by
  cases element with
  | str id =>
    rw [resolvedElement, resolvedElement, resolveElement, resolveElement]
    cases store.value type id <;> rfl
  | _ => rfl

theorem resolvedElement_eq_iff {type : String} {element : Js} {s' : S'} :
    resolvedElement nest store type element s = resolvedElement nest' store type element s' ↔
      Agree nest nest' (referredElement store type element) s s' := by
  cases element with
  | str id =>
    rw [resolvedElement, resolvedElement, resolveElement, resolveElement, referredElement]
    cases store.value type id with
    | none => exact iff_of_true rfl trivial
    | some referenced =>
      show [Js.obj (nest type referenced s).1.entries] =
        [Js.obj (nest' type referenced s').1.entries] ↔
          (nest type referenced s).1 = (nest' type referenced s').1 ∧ True
      rw [and_true, List.cons.injEq, Js.obj.injEq]
      exact ⟨fun h => Record.eq_of_entries h.1, fun h => ⟨congrArg _ h, rfl⟩⟩
  | _ => exact iff_of_true rfl trivial

/-- What the elements of a 'many' relation are resolved to. -/
def resolvedElements (nest : String → Entity → S → Entity × S) (store : EntityStore)
    (type : String) : List Js → S → List Js
  | [], _ => []
  | element :: elements, s =>
    resolvedElement nest store type element s ++
      resolvedElements nest store type elements
        (threaded nest (referredElement store type element) s)

theorem foldl_resolveElement (type : String) (elements : List Js) (acc : List Js × S) :
    elements.foldl (resolveElement nest store type) acc =
      (acc.1 ++ resolvedElements nest store type elements acc.2,
        threaded nest (elements.flatMap (referredElement store type)) acc.2) := by
  induction elements generalizing acc with
  | nil => exact Prod.ext (append_nil _).symm rfl
  | cons element elements ih =>
    rw [foldl_cons, ih, resolveElement_eq, flatMap_cons, threaded_append,
      resolvedElements, append_assoc]

theorem resolvedElements_eq_iff {type : String} (elements : List Js) {s' : S'} :
    resolvedElements nest store type elements s = resolvedElements nest' store type elements s' ↔
      Agree nest nest' (elements.flatMap (referredElement store type)) s s' := by
  induction elements generalizing s s' with
  | nil => exact iff_of_true rfl trivial
  | cons element elements ih =>
    rw [resolvedElements, resolvedElements, flatMap_cons, agree_append, ← ih,
      ← resolvedElement_eq_iff]
    exact ⟨fun h => append_inj h (resolvedElement_length type element s s'),
      fun h => congrArg₂ _ h.1 h.2⟩

/-- What a relation field is overwritten with. -/
def resolvedValue (nest : String → Entity → S → Entity × S) (store : EntityStore)
    (rel : RelationFieldDef) (value : Js) (s : S) : Option Js :=
  match rel.type, value with
  | .one, .str id =>
    match store.value rel.entity id with
    | some referenced => some (.obj (nest rel.entity referenced s).1.entries)
    | none => some .null
  | .one, .obj entries => some (.obj entries)
  | .many, .arr elements => some (.arr (resolvedElements nest store rel.entity elements s))
  | _, _ => none

variable (entity : Entity)

theorem resolveField_eq (acc : Entity × S) (e : String × RelationFieldDef) :
    resolveField nest store entity acc e =
      ((resolvedValue nest store e.2 (field entity e.1) acc.2).elim acc.1 (acc.1.insert e.1),
        threaded nest (referredIn store entity e) acc.2) := by
  obtain ⟨name, type, related⟩ := e
  cases type with
  | one =>
    cases hvalue : field entity name with
    | str id =>
      simp only [resolveField, resolvedValue, referredIn, referredElement, hvalue]
      cases store.value related id <;> rfl
    | _ =>
      simp only [resolveField, resolvedValue, referredIn, referredElement, hvalue]
      rfl
  | many =>
    cases hvalue : field entity name with
    | arr elements =>
      simp only [resolveField, resolvedValue, referredIn, hvalue, foldl_resolveElement,
        nil_append]
      rfl
    | _ =>
      simp only [resolveField, resolvedValue, referredIn, hvalue]
      rfl

theorem resolvedValue_isSome (rel : RelationFieldDef) (value : Js) (s : S) (s' : S') :
    (resolvedValue nest store rel value s).isSome = (resolvedValue nest' store rel value s').isSome := by
  obtain ⟨type, related⟩ := rel
  cases type with
  | one =>
    cases value with
    | str id =>
      simp only [resolvedValue]
      cases store.value related id <;> rfl
    | _ => rfl
  | many => cases value <;> rfl

theorem resolvedValue_eq_iff {entity : Entity} {e : String × RelationFieldDef} {s' : S'} :
    resolvedValue nest store e.2 (field entity e.1) s =
        resolvedValue nest' store e.2 (field entity e.1) s' ↔
      Agree nest nest' (referredIn store entity e) s s' := by
  obtain ⟨name, type, related⟩ := e
  cases type with
  | one =>
    cases hvalue : field entity name with
    | str id =>
      simp only [resolvedValue, referredIn, referredElement, hvalue]
      cases store.value related id with
      | none => exact iff_of_true rfl trivial
      | some referenced =>
        show some (Js.obj (nest related referenced s).1.entries) =
          some (Js.obj (nest' related referenced s').1.entries) ↔
            (nest related referenced s).1 = (nest' related referenced s').1 ∧ True
        rw [and_true, Option.some_inj, Js.obj.injEq]
        exact ⟨fun h => Record.eq_of_entries h, fun h => congrArg _ h⟩
    | _ =>
      simp only [resolvedValue, referredIn, referredElement, hvalue]
      exact iff_of_true trivial trivial
  | many =>
    cases hvalue : field entity name with
    | arr elements =>
      simp only [resolvedValue, referredIn, hvalue, Option.some_inj, Js.arr.injEq]
      exact resolvedElements_eq_iff elements
    | _ =>
      simp only [resolvedValue, referredIn, hvalue]
      exact iff_of_true trivial trivial

theorem threaded_fields (rels : List (String × RelationFieldDef)) (acc : Entity × S) :
    (rels.foldl (resolveField nest store entity) acc).2 =
      threaded nest (rels.flatMap (referredIn store entity)) acc.2 := by
  induction rels generalizing acc with
  | nil => rfl
  | cons e rels ih => rw [foldl_cons, ih, resolveField_eq, flatMap_cons, threaded_append]

variable {rels : List (String × RelationFieldDef)}

theorem get?_fields_of_not_mem {name : String} (h : name ∉ rels.map Prod.fst) (acc : Entity × S) :
    (rels.foldl (resolveField nest store entity) acc).1.get? name = acc.1.get? name := by
  induction rels generalizing acc with
  | nil => rfl
  | cons e rels ih =>
    rw [map_cons] at h
    have hne : e.1 ≠ name := fun heq => h (heq ▸ mem_cons_self)
    rw [foldl_cons, ih (not_mem_of_not_mem_cons h), resolveField_eq]
    cases resolvedValue nest store e.2 (field entity e.1) acc.2 with
    | none => rfl
    | some value => exact (Record.get?_insert acc.1 e.1 name value).trans (if_neg hne)

theorem fields_eq_of_agree (rels : List (String × RelationFieldDef)) {a : Entity} {s' : S'}
    (h : Agree nest nest' (rels.flatMap (referredIn store entity)) s s') :
    (rels.foldl (resolveField nest store entity) (a, s)).1 =
      (rels.foldl (resolveField nest' store entity) (a, s')).1 := by
  induction rels generalizing a s s' with
  | nil => rfl
  | cons e rels ih =>
    rw [flatMap_cons, agree_append] at h
    rw [foldl_cons, foldl_cons, resolveField_eq, resolveField_eq]
    simp only [resolvedValue_eq_iff.mpr h.1]
    exact ih h.2

theorem agree_of_fields_eq (hnodup : (rels.map Prod.fst).Nodup) {a a' : Entity} {s' : S'}
    (h : (rels.foldl (resolveField nest store entity) (a, s)).1 =
      (rels.foldl (resolveField nest' store entity) (a', s')).1) :
    Agree nest nest' (rels.flatMap (referredIn store entity)) s s' := by
  induction rels generalizing a a' s s' with
  | nil => trivial
  | cons e rels ih =>
    rw [map_cons, nodup_cons] at hnodup
    rw [flatMap_cons, agree_append]
    rw [foldl_cons, foldl_cons] at h
    -- the later fields leave the value of this one
    have hread := congrArg (fun record => Record.get? record e.1) h
    simp only [get?_fields_of_not_mem entity hnodup.1, resolveField_eq] at hread
    have hsome : (resolvedValue nest store e.2 (field entity e.1) s).isSome =
        (resolvedValue nest' store e.2 (field entity e.1) s').isSome :=
      resolvedValue_isSome e.2 (field entity e.1) s s'
    refine ⟨resolvedValue_eq_iff.mp ?_, ?_⟩
    · cases hv : resolvedValue nest store e.2 (field entity e.1) s with
      | none =>
        rw [hv] at hsome
        exact (Option.not_isSome_iff_eq_none.mp (by rw [← hsome]; decide)).symm
      | some v =>
        rw [hv] at hsome hread
        obtain ⟨v', hv'⟩ := Option.isSome_iff_exists.mp hsome.symm
        rw [hv'] at hread ⊢
        simpa using hread
    · rw [resolveField_eq, resolveField_eq] at h
      exact ih hnodup.2 h

/-- An entity is resolved alike exactly when its references are. -/
theorem resolveFields_eq_iff {schema : RelationSchema} {entity : Entity} {s' : S'} :
    (resolveFields nest store schema entity s).1 = (resolveFields nest' store schema entity s').1 ↔
      Agree nest nest' (schema.entries.flatMap (referredIn store entity)) s s' :=
  ⟨agree_of_fields_eq entity schema.nodup, fields_eq_of_agree entity schema.entries⟩

/-! ### Entities with nothing to resolve -/

theorem resolvedElements_isObject (type : String) (elements : List Js) (s : S) :
    ∀ value ∈ resolvedElements nest store type elements s, isObject value = true := by
  induction elements generalizing s with
  | nil => exact fun _ h => by cases h
  | cons element elements ih =>
    intro value hvalue
    rcases mem_append.mp hvalue with hhead | hrest
    · cases element with
      | str id =>
        rw [resolvedElement, resolveElement] at hhead
        cases hfound : store.value type id with
        | none =>
          rw [hfound] at hhead
          cases hhead
        | some referenced =>
          rw [hfound] at hhead
          obtain rfl := mem_singleton.mp hhead
          rfl
      | obj entries => exact mem_singleton.mp hhead ▸ rfl
      | arr values => exact mem_singleton.mp hhead ▸ rfl
      | _ => cases hhead
    · exact ih _ value hrest

theorem resolvedElements_of_isObject {type : String} {elements : List Js}
    (h : ∀ element ∈ elements, isObject element = true) (s : S) :
    resolvedElements nest store type elements s = elements := by
  induction elements generalizing s with
  | nil => rfl
  | cons element elements ih =>
    rw [resolvedElements, ih fun e he => h e (mem_cons_of_mem _ he)]
    have hhead := h element mem_cons_self
    cases element with
    | obj entries => rfl
    | arr values => rfl
    | _ => cases hhead

theorem resolvedValue_flat_iff {rel : RelationFieldDef} {value : Js} :
    (∀ v ∈ resolvedValue nest store rel value s, v = value) ↔ FlatValue rel.type value := by
  obtain ⟨type, related⟩ := rel
  cases type with
  | one =>
    cases value with
    | str id =>
      refine iff_of_false (fun h => ?_) not_false
      simp only [resolvedValue] at h
      cases hfound : store.value related id with
      | none =>
        rw [hfound] at h
        cases h _ rfl
      | some referenced =>
        rw [hfound] at h
        cases h _ rfl
    | obj entries => exact iff_of_true (fun v hv => (Option.some.inj hv).symm) trivial
    | _ => exact iff_of_true (fun v hv => by cases hv) trivial
  | many =>
    cases value with
    | arr elements =>
      show (∀ v ∈ some (Js.arr (resolvedElements nest store related elements s)), _) ↔
        ∀ element ∈ elements, isObject element = true
      constructor
      · intro h
        have heq : resolvedElements nest store related elements s = elements :=
          Js.arr.inj (h _ rfl)
        exact heq ▸ resolvedElements_isObject related elements s
      · intro h v hv
        rw [resolvedElements_of_isObject h] at hv
        exact (Option.some.inj hv).symm
    | _ => exact iff_of_true (fun v hv => by cases hv) trivial

theorem get?_fields_of_mem (hnodup : (rels.map Prod.fst).Nodup) {e : String × RelationFieldDef}
    (he : e ∈ rels) (acc : Entity × S) :
    ∃ s, (rels.foldl (resolveField nest store entity) acc).1.get? e.1 =
      (resolvedValue nest store e.2 (field entity e.1) s).or (acc.1.get? e.1) := by
  induction rels generalizing acc with
  | nil => cases he
  | cons e' rels ih =>
    rw [map_cons, nodup_cons] at hnodup
    rw [foldl_cons]
    rcases mem_cons.mp he with rfl | he
    · refine ⟨acc.2, ?_⟩
      rw [get?_fields_of_not_mem entity hnodup.1, resolveField_eq]
      cases resolvedValue nest store e.2 (field entity e.1) acc.2 with
      | none => rfl
      | some value => exact Record.get?_insert_self acc.1 e.1 value
    · obtain ⟨s, hs⟩ := ih hnodup.2 he (resolveField nest store entity acc e')
      refine ⟨s, hs.trans (congrArg _ ?_)⟩
      have hne : e'.1 ≠ e.1 := fun heq => hnodup.1 (heq ▸ mem_map_of_mem he)
      rw [resolveField_eq]
      cases resolvedValue nest store e'.2 (field entity e'.1) acc.2 with
      | none => rfl
      | some value => exact (Record.get?_insert acc.1 e'.1 e.1 value).trans (if_neg hne)

theorem insert_field {entity : Entity} {name : String} {value : Js}
    (h : field entity name = value) (hvalue : value ≠ .undefined) :
    entity.insert name value = entity := by
  have hget : entity.get? name = some value := by
    rw [field] at h
    cases hget : entity.get? name with
    | none =>
      rw [hget] at h
      exact absurd h.symm hvalue
    | some v =>
      rw [hget] at h
      exact congrArg some h
  exact Record.insert_of_get? hget

theorem resolvedValue_defined {rel : RelationFieldDef} {value v : Js}
    (h : resolvedValue nest store rel value s = some v) : v ≠ .undefined := by
  obtain ⟨type, related⟩ := rel
  cases type with
  | one =>
    cases value with
    | str id =>
      simp only [resolvedValue] at h
      split at h <;> exact Option.some.inj h ▸ Js.noConfusion
    | obj entries => exact Option.some.inj h ▸ Js.noConfusion
    | _ => cases h
  | many =>
    cases value with
    | arr elements => exact Option.some.inj h ▸ Js.noConfusion
    | _ => cases h

theorem resolveFields_flat_iff {schema : RelationSchema} {entity : Entity} :
    (resolveFields nest store schema entity s).1 = entity ↔
      ∀ e ∈ schema.entries, FlatValue e.2.type (field entity e.1) := by
  constructor
  · intro h e he
    obtain ⟨s', hs'⟩ : ∃ s', (schema.entries.foldl (resolveField nest store entity)
        (entity, s)).1.get? e.1 =
          (resolvedValue nest store e.2 (field entity e.1) s').or (entity.get? e.1) :=
      get?_fields_of_mem entity schema.nodup he (entity, s)
    have hflat : (∀ v ∈ resolvedValue nest store e.2 (field entity e.1) s',
        v = field entity e.1) ↔ FlatValue e.2.type (field entity e.1) := resolvedValue_flat_iff
    refine hflat.mp fun v hv => ?_
    rw [show (schema.entries.foldl (resolveField nest store entity) (entity, s)).1 = entity from h,
      Option.mem_def.mp hv] at hs'
    rw [field, hs']
    rfl
  · intro h
    refine List.foldlRecOn schema.entries (motive := fun acc : Entity × S => acc.1 = entity) _
      rfl fun acc hacc e he => ?_
    rw [resolveField_eq]
    cases hvalue : resolvedValue nest store e.2 (field entity e.1) acc.2 with
    | none => exact hacc
    | some v =>
      have hv := resolvedValue_flat_iff.mpr (h e he) v hvalue
      rw [hacc]
      exact insert_field hv.symm (resolvedValue_defined hvalue)

end Level

/-! ### A whole resolution -/

variable {relations : Relations} {store : EntityStore}

/-- The keys that are visited on the way through some references. -/
def keysOf (relations : Relations) (refs : List (Occurrence × List String)) : List String :=
  refs.filterMap fun b => if (relations b.1.type).isSome then some b.1.key else none

/-- `SharedFlat` with some keys visited already. -/
structure FlatFrom (relations : Relations) (visit : List String)
    (refs : List (Occurrence × List String)) : Prop where
  visited : ∀ b ∈ refs, (relations b.1.type).isSome → b.1.key ∈ visit →
    b.1.key ∈ b.2 ∨ Flat relations b.1
  shared : refs.Pairwise fun a b =>
    (relations a.1.type).isSome → (relations b.1.type).isSome → a.1.key = b.1.key →
      b.1.key ∈ b.2 ∨ Flat relations b.1

theorem mem_keysOf {refs : List (Occurrence × List String)} {key : String} :
    key ∈ keysOf relations refs ↔
      ∃ b ∈ refs, (relations b.1.type).isSome ∧ b.1.key = key := by
  rw [keysOf, mem_filterMap]
  refine exists_congr fun b => and_congr_right fun _ => ?_
  by_cases h : (relations b.1.type).isSome
  · simp [h]
  · simp [h]

theorem keysOf_append (refs refs' : List (Occurrence × List String)) :
    keysOf relations (refs ++ refs') = keysOf relations refs ++ keysOf relations refs' :=
  filterMap_append

theorem flatFrom_append {visit : List String} {refs refs' : List (Occurrence × List String)} :
    FlatFrom relations visit (refs ++ refs') ↔
      FlatFrom relations visit refs ∧ FlatFrom relations (visit ++ keysOf relations refs) refs' := by
  constructor
  · rintro ⟨hvisited, hshared⟩
    obtain ⟨hleft, hright, hcross⟩ := pairwise_append.mp hshared
    refine ⟨⟨fun b hb => hvisited b (mem_append_left _ hb), hleft⟩, fun b hb hsome hkey => ?_,
      hright⟩
    rcases mem_append.mp hkey with hold | hnew
    · exact hvisited b (mem_append_right _ hb) hsome hold
    · obtain ⟨a, ha, hasome, heq⟩ := mem_keysOf.mp hnew
      exact hcross a ha b hb hasome hsome heq
  · rintro ⟨⟨hvisited, hshared⟩, hvisited', hshared'⟩
    refine ⟨fun b hb hsome hkey => ?_, pairwise_append.mpr ⟨hshared, hshared', ?_⟩⟩
    · rcases mem_append.mp hb with hb | hb
      · exact hvisited b hb hsome hkey
      · exact hvisited' b hb hsome (mem_append_left _ hkey)
    · intro a ha b hb hasome hsome heq
      refine hvisited' b hb hsome (mem_append_right _ ?_)
      exact mem_keysOf.mpr ⟨a, ha, hasome, heq⟩

theorem flatFrom_nil (visit : List String) : FlatFrom relations visit [] :=
  ⟨fun _ h => (by cases h), .nil⟩

theorem flatFrom_congr {visit visit' : List String} {refs : List (Occurrence × List String)}
    (h : ∀ key, key ∈ visit ↔ key ∈ visit') :
    FlatFrom relations visit refs ↔ FlatFrom relations visit' refs :=
  ⟨fun ⟨hvisited, hshared⟩ => ⟨fun b hb hsome hkey => hvisited b hb hsome ((h _).mpr hkey), hshared⟩,
    fun ⟨hvisited, hshared⟩ => ⟨fun b hb hsome hkey => hvisited b hb hsome ((h _).mp hkey), hshared⟩⟩

theorem flatFrom_singleton {visit : List String} {b : Occurrence × List String} :
    FlatFrom relations visit [b] ↔
      ((relations b.1.type).isSome → b.1.key ∈ visit → b.1.key ∈ b.2 ∨ Flat relations b.1) :=
  ⟨fun h => h.visited b mem_cons_self, fun h =>
    ⟨fun _ hmem => mem_singleton.mp hmem ▸ h, pairwise_singleton _ _⟩⟩

/-- The entity resolved with the visited keys is the one resolved with the
ancestors exactly when the shared references are flat, and then the keys of
all references are visited. -/
structure ResolvesAlike (relations : Relations) (store : EntityStore) (fuel : ℕ)
    (ancestors : List String) (s : Resolving) (o : Occurrence) : Prop where
  value : (resolveTo relations store fuel o.type o.data s).1 =
      resolveWithin relations store fuel ancestors o ↔
    FlatFrom relations s.visit (referencesTo relations store fuel ancestors o)
  visit : FlatFrom relations s.visit (referencesTo relations store fuel ancestors o) → ∀ key,
    key ∈ (resolveTo relations store fuel o.type o.data s).2.visit ↔
      key ∈ s.visit ++ keysOf relations (referencesTo relations store fuel ancestors o)

/-- Resolve a reference with the ancestors. -/
def within (relations : Relations) (store : EntityStore) (fuel : ℕ) (ancestors : List String)
    (type : String) (entity : Entity) (_ : Unit) : Entity × Unit :=
  (resolveWithin relations store fuel ancestors ⟨type, entity⟩, ())

theorem references_alike {fuel : ℕ} {ancestors : List String}
    (ih : ∀ s o, (∀ key ∈ ancestors, key ∈ s.visit) →
      ResolvesAlike relations store fuel ancestors s o)
    (cs : List Occurrence) {s : Resolving} (hs : ∀ key ∈ ancestors, key ∈ s.visit) :
    (Agree (resolveTo relations store fuel) (within relations store fuel ancestors) cs s () ↔
        FlatFrom relations s.visit (cs.flatMap (referencesTo relations store fuel ancestors))) ∧
      (FlatFrom relations s.visit (cs.flatMap (referencesTo relations store fuel ancestors)) →
        ∀ key, key ∈ (threaded (resolveTo relations store fuel) cs s).visit ↔
          key ∈ s.visit ++
            keysOf relations (cs.flatMap (referencesTo relations store fuel ancestors))) := by
  induction cs generalizing s with
  | nil =>
    refine ⟨iff_of_true trivial (flatFrom_nil s.visit), fun _ key => ?_⟩
    show key ∈ s.visit ↔ key ∈ s.visit ++ []
    rw [append_nil]
  | cons c cs ihcs =>
    obtain ⟨hvalue, hvisit⟩ := ih s c hs
    let s' := (resolveTo relations store fuel c.type c.data s).2
    have hs' : ∀ key ∈ ancestors, key ∈ s'.visit := fun key hkey =>
      visit_resolveTo relations store fuel c.type c.data (hs key hkey)
    obtain ⟨hrest, hthreaded⟩ := ihcs hs'
    rw [flatMap_cons, flatFrom_append]
    constructor
    · show (_ = resolveWithin relations store fuel ancestors c ∧ Agree _ _ cs s' ()) ↔ _
      rw [hvalue, hrest]
      exact and_congr_right fun hhead => flatFrom_congr (hvisit hhead)
    · rintro ⟨hhead, htail⟩ key
      have hkeys := hthreaded ((flatFrom_congr (hvisit hhead)).mpr htail) key
      rw [keysOf_append, ← append_assoc, mem_append, ← hvisit hhead key,
        ← mem_append]
      exact hkeys

/-- An entity that is not gone into is the only one on the way. -/
theorem alike_of_stop {fuel : ℕ} {ancestors : List String} {s : Resolving} {o : Occurrence}
    (hdata : (resolveTo relations store fuel o.type o.data s).1 = o.data)
    (hvisit : (resolveTo relations store fuel o.type o.data s).2.visit = s.visit)
    (hrefs : referencesTo relations store fuel ancestors o = [(o, ancestors)])
    (hwithin : resolveWithin relations store fuel ancestors o = o.data ↔
      ((relations o.type).isSome → o.key ∈ s.visit → o.key ∈ ancestors ∨ Flat relations o))
    (hkey : (relations o.type).isSome → o.key ∈ s.visit) :
    ResolvesAlike relations store fuel ancestors s o := by
  refine ⟨?_, fun _ key => ?_⟩
  · rw [hrefs, flatFrom_singleton, ← hwithin, hdata]
    exact eq_comm
  · rw [hrefs, hvisit, mem_append, mem_keysOf]
    refine ⟨.inl, fun h => h.elim id ?_⟩
    rintro ⟨b, hb, hsome, rfl⟩
    obtain rfl := mem_singleton.mp hb
    exact hkey hsome

theorem referred_of_flat {o : Occurrence} (h : Flat relations o) :
    referred relations store o = [] := by
  rw [referred]
  split
  · rfl
  · next schema hschema =>
      refine flatMap_eq_nil_iff.mpr fun e he => ?_
      have hvalue := h schema hschema e he
      rw [referredIn]
      split
      · next htype =>
          rw [htype] at hvalue
          cases hfield : field o.data e.1 with
          | str id =>
            rw [hfield] at hvalue
            cases hvalue
          | _ => rfl
      · next elements htype hfield =>
          rw [htype, hfield] at hvalue
          refine flatMap_eq_nil_iff.mpr fun element hmem => ?_
          have hobject := hvalue element hmem
          cases element with
          | str id => cases hobject
          | _ => rfl
      · rfl

theorem resolves_alike (fuel : ℕ) (ancestors : List String) (s : Resolving) (o : Occurrence)
    (hs : ∀ key ∈ ancestors, key ∈ s.visit) :
    ResolvesAlike relations store fuel ancestors s o := by
  induction fuel generalizing ancestors s o with
  | zero =>
    refine ⟨iff_of_true rfl (flatFrom_nil s.visit), fun _ key => ?_⟩
    show key ∈ s.visit ↔ key ∈ s.visit ++ []
    rw [append_nil]
  | succ fuel ih =>
    cases hschema : relations o.type with
    | none =>
      have hresolve : resolveTo relations store (fuel + 1) o.type o.data s =
          (o.data, s.refer o.type o.data) := by rw [resolveTo, hschema]
      have hsome : ¬ (relations o.type).isSome := by
        rw [hschema]
        exact Bool.false_ne_true
      refine alike_of_stop (by rw [hresolve]) ?_ ?_ ?_ fun h => absurd h hsome
      · rw [hresolve]
        exact s.visit_refer o.type o.data
      · have hnone : referred relations store o = [] := by rw [referred, hschema]
        rw [referencesTo, hnone]
        split <;> rfl
      · refine iff_of_true ?_ fun h => absurd h hsome
        rw [resolveWithin, hschema]
    | some schema =>
      have hsome : (relations o.type).isSome := by
        rw [hschema]
        rfl
      have hstop : o.key ∈ s.visit →
          resolveTo relations store (fuel + 1) o.type o.data s = (o.data, s) := fun hvisit => by
        simp only [resolveTo, hschema]
        exact if_pos hvisit
      by_cases hancestor : o.key ∈ ancestors
      · refine alike_of_stop (by rw [hstop (hs _ hancestor)]) (by rw [hstop (hs _ hancestor)])
          ?_ ?_ fun _ => hs _ hancestor
        · rw [referencesTo, if_pos hancestor]
        · refine iff_of_true ?_ fun _ _ => .inl hancestor
          simp only [resolveWithin, hschema, if_pos hancestor]
      · have hwithin : resolveWithin relations store (fuel + 1) ancestors o =
            (resolveFields (within relations store fuel (o.key :: ancestors)) store schema
              o.data ()).1 := by
          simp only [resolveWithin, hschema, if_neg hancestor]
          rfl
        have hrefs : referencesTo relations store (fuel + 1) ancestors o =
            [(o, ancestors)] ++ (referred relations store o).flatMap
              (referencesTo relations store fuel (o.key :: ancestors)) := by
          rw [referencesTo, if_neg hancestor]
          rfl
        by_cases hvisit : o.key ∈ s.visit
        · -- the code cuts here, and `resolveWithin` goes on
          have hflat : resolveWithin relations store (fuel + 1) ancestors o = o.data ↔
              Flat relations o := by
            rw [hwithin, resolveFields_flat_iff, Flat, hschema]
            exact ⟨fun h schema' h' => Option.some.inj h' ▸ h, fun h => h schema rfl⟩
          by_cases hplain : Flat relations o
          · refine alike_of_stop (by rw [hstop hvisit]) (by rw [hstop hvisit]) ?_ ?_
              fun _ => hvisit
            · rw [hrefs, referred_of_flat hplain]
              rfl
            · exact iff_of_true (hflat.mpr hplain) fun _ _ => .inr hplain
          · have hnot : ¬ FlatFrom relations s.visit
                (referencesTo relations store (fuel + 1) ancestors o) := by
              rw [hrefs, flatFrom_append, flatFrom_singleton]
              exact fun h => (h.1 hsome hvisit).elim hancestor hplain
            refine ⟨iff_of_false (fun heq => hplain (hflat.mp ?_)) hnot,
              fun h => absurd h hnot⟩
            rw [← heq, hstop hvisit]
        · have hgo : resolveTo relations store (fuel + 1) o.type o.data s =
              resolveFields (resolveTo relations store fuel) store schema o.data
                { s.refer o.type o.data with visit := o.key :: (s.refer o.type o.data).visit } := by
            simp only [resolveTo, hschema]
            exact if_neg hvisit
          have hreferred : referred relations store o =
              schema.entries.flatMap (referredIn store o.data) := by rw [referred, hschema]
          let s' : Resolving :=
            { s.refer o.type o.data with visit := o.key :: (s.refer o.type o.data).visit }
          have hvisit' : s'.visit = o.key :: s.visit :=
            congrArg (o.key :: ·) (s.visit_refer o.type o.data)
          have hs' : ∀ key ∈ o.key :: ancestors, key ∈ s'.visit := by
            intro key hkey
            rw [hvisit']
            exact (mem_cons.mp hkey).elim (fun heq => heq ▸ mem_cons_self)
              fun hmem => mem_cons_of_mem _ (hs key hmem)
          obtain ⟨hagree, hthreaded⟩ := references_alike
            (ih (o.key :: ancestors)) (referred relations store o) hs'
          have hkeys : ∀ key, key ∈ s'.visit ↔
              key ∈ s.visit ++ keysOf relations [(o, ancestors)] := by
            intro key
            have hkey : keysOf relations [(o, ancestors)] = [o.key] :=
              filterMap_cons_some (if_pos hsome)
            rw [hvisit', hkey, mem_cons, mem_append, mem_singleton, or_comm]
          have hflat : FlatFrom relations s.visit
              (referencesTo relations store (fuel + 1) ancestors o) ↔
                FlatFrom relations s'.visit ((referred relations store o).flatMap
                  (referencesTo relations store fuel (o.key :: ancestors))) := by
            rw [hrefs, flatFrom_append, flatFrom_singleton, flatFrom_congr hkeys]
            exact and_iff_right fun _ hkey => absurd hkey hvisit
          refine ⟨?_, fun h key => ?_⟩
          · rw [hgo, hwithin, hflat, resolveFields_eq_iff, ← hreferred]
            exact hagree
          · have hmem := hthreaded (hflat.mp h) key
            rw [hreferred] at hmem
            rw [hgo, resolveFields, threaded_fields, hrefs, keysOf_append, ← append_assoc,
              mem_append, ← hkeys key, ← mem_append, hreferred]
            exact hmem

/-- A resolution depends on the store and the ancestors alone exactly when
what it comes to a second time, and not below itself, is flat. -/
theorem resolvesByAncestors_iff (o : Occurrence) :
    ResolvesByAncestors relations store o ↔ SharedFlat relations store o := by
  have halike : ResolvesAlike relations store (store.valueKeys.length + 2) [] {} o :=
    resolves_alike _ [] {} o fun _ h => (by cases h)
  rw [ResolvesByAncestors, resolveReferences, halike.value]
  exact ⟨fun h => h.shared, fun h => ⟨fun _ _ _ hkey => (by cases hkey), h⟩⟩

end Vertz.Spec
