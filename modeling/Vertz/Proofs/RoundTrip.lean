import Vertz.Proofs.Normalization
import Vertz.Proofs.References

/-!
# `Vertz.Proofs.RoundTrip`: resolving what was merged

A payload whose repeated occurrences are equal is stored as a whole: every
occurrence is among the unrepeated ones (`mem_unrepeated`), so the store
holds each as it is stored (`Arrival.entryAt_merged`). Resolving the root
with the ancestors alone then gives the payload again
(`Arrival.resolveWithin_stored`).

`shared_flat_iff` adds what the code resolves. In
`second_reference_raw` a post has one author and reviewer.
-/

namespace Vertz.Spec

open Vertz.Ui.Store.EntityEntry
open Vertz.Lib Vertz.Ui.Store List

variable {relations : Relations}

/-! ### The occurrences below an occurrence -/

theorem occurrencesTo_depth {n m : ℕ} {o : Occurrence} (hn : Js.depthEntries o.data.entries < n)
    (hm : Js.depthEntries o.data.entries < m) :
    occurrencesTo relations n o = occurrencesTo relations m o := by
  induction n generalizing m o with
  | zero => omega
  | succ n ih =>
    cases m with
    | zero => omega
    | succ m =>
      rw [occurrencesTo, occurrencesTo]
      refine congrArg (o :: ·) (flatMap_congr fun c hc => ?_)
      have hlt := depth_nested hc
      exact ih (by omega) (by omega)

theorem occurrences_eq (o : Occurrence) :
    occurrences relations o = o :: (nested relations o).flatMap (occurrences relations) := by
  rw [occurrences, occurrencesTo]
  refine congrArg (o :: ·) (flatMap_congr fun c hc => ?_)
  exact occurrencesTo_depth (depth_nested hc) (Nat.lt_succ_self _)

theorem self_mem_occurrences (o : Occurrence) : o ∈ occurrences relations o :=
  occurrences_eq o ▸ mem_cons_self

theorem mem_occurrences_of_nested {o c b : Occurrence} (hc : c ∈ nested relations o)
    (hb : b ∈ occurrences relations c) : b ∈ occurrences relations o := by
  rw [occurrences_eq]
  exact mem_cons_of_mem _ (mem_flatMap.mpr ⟨c, hc, hb⟩)

/-! ### No occurrence is missing -/

/-- What is nested in the occurrences taken is taken itself, or its key was
met. -/
structure Closed (relations : Relations) (met : List String) (done : List Occurrence)
    (acc : List Occurrence × List String) : Prop where
  done : ∀ c ∈ done, c ∈ acc.1 ∨ c.key ∈ acc.2
  nested : ∀ o ∈ acc.1, ∀ c ∈ nested relations o, c ∈ acc.1 ∨ c.key ∈ acc.2
  met : ∀ key ∈ acc.2, key ∈ met ∨ ∃ c ∈ acc.1, c.key = key

theorem Closed.meet {met : List String} {done : List Occurrence}
    {acc : List Occurrence × List String}
    {below : List String → Occurrence → List Occurrence × List String} {c : Occurrence}
    (h : Closed relations met done acc)
    (hkeeps : ∀ key ∈ acc.2, key ∈ (below acc.2 c).2)
    (hnested : ∀ o ∈ c :: (below acc.2 c).1, ∀ c' ∈ Spec.nested relations o,
      c' ∈ c :: (below acc.2 c).1 ∨ c'.key ∈ (below acc.2 c).2)
    (hmet : ∀ key ∈ (below acc.2 c).2, key ∈ acc.2 ∨
      ∃ c' ∈ c :: (below acc.2 c).1, c'.key = key) :
    Closed relations met (done ++ [c]) (Spec.meet below acc c) := by
  rw [Spec.meet]
  split
  · next hkey =>
      refine ⟨fun c' hc' => ?_, h.nested, h.met⟩
      rcases mem_append.mp hc' with hold | hnew
      · exact h.done c' hold
      · exact .inr (mem_singleton.mp hnew ▸ hkey)
  · refine ⟨fun c' hc' => ?_, fun o ho c' hc' => ?_, fun key hkey => ?_⟩
    · rcases mem_append.mp hc' with hold | hnew
      · exact (h.done c' hold).imp (mem_append_left _) (hkeeps _)
      · obtain rfl := mem_singleton.mp hnew
        exact .inl (mem_append_right _ mem_cons_self)
    · rcases mem_append.mp ho with hold | hnew
      · exact (h.nested o hold c' hc').imp (mem_append_left _) (hkeeps _)
      · exact (hnested o hnew c' hc').imp_left (mem_append_right _)
    · rcases hmet key hkey with hold | ⟨c', hc', heq⟩
      · refine (h.met key hold).imp_right ?_
        rintro ⟨c', hc', heq⟩
        exact ⟨c', mem_append_left _ hc', heq⟩
      · exact .inr ⟨c', mem_append_right _ hc', heq⟩

/-- What lies below an occurrence is taken, or its key was met. -/
structure BelowClosed (relations : Relations) (depth : ℕ) (met : List String) (o : Occurrence) :
    Prop where
  nested : ∀ o' ∈ o :: (belowTo relations depth met o).1, ∀ c ∈ nested relations o',
    c ∈ o :: (belowTo relations depth met o).1 ∨ c.key ∈ (belowTo relations depth met o).2
  keys : ∀ key ∈ (belowTo relations depth met o).2, key ∈ met ∨
    ∃ c ∈ o :: (belowTo relations depth met o).1, c.key = key
  occurs : ∀ c ∈ (belowTo relations depth met o).1, c ∈ occurrences relations o

theorem below_closed (depth : ℕ) (met : List String) (o : Occurrence)
    (hdepth : Js.depthEntries o.data.entries < depth) : BelowClosed relations depth met o := by
  induction depth generalizing met o with
  | zero => omega
  | succ depth ih =>
    cases hschema : relations o.type with
    | none =>
      have hbelow : belowTo relations (depth + 1) met o = ([], met) := by
        rw [belowTo, hschema]
      have hnested : nested relations o = [] := by rw [nested, hschema]
      refine ⟨fun o' ho' c hc => ?_, fun key hkey => ?_, fun c hc => ?_⟩
      · rw [hbelow] at ho'
        obtain rfl := mem_singleton.mp ho'
        rw [hnested] at hc
        cases hc
      · rw [hbelow] at hkey
        exact .inl hkey
      · rw [hbelow] at hc
        cases hc
    | some schema =>
      have hchild : ∀ met' (c : Occurrence), c ∈ nested relations o →
          BelowClosed relations depth met' c := fun met' c hc => by
        have hlt := depth_nested hc
        exact ih met' c (by omega)
      have hfold : ∀ (cs done : List Occurrence) (acc : List Occurrence × List String),
          (∀ c ∈ cs, c ∈ nested relations o) → Closed relations (o.key :: met) done acc →
          (∀ c ∈ acc.1, c ∈ occurrences relations o) →
          Closed relations (o.key :: met) (done ++ cs)
              (cs.foldl (meet (belowTo relations depth)) acc) ∧
            ∀ c ∈ (cs.foldl (meet (belowTo relations depth)) acc).1,
              c ∈ occurrences relations o := by
        intro cs
        induction cs with
        | nil =>
          intro done acc _ hclosed hoccurs
          exact ⟨(append_nil done).symm ▸ hclosed, hoccurs⟩
        | cons c cs ihcs =>
          intro done acc hcs hclosed hoccurs
          have hc := hcs c mem_cons_self
          obtain ⟨hnested, hmet, hbelow⟩ := hchild acc.2 c hc
          have hstep := hclosed.meet (extends_below depth acc.2 c).1.keeps hnested hmet
          rw [foldl_cons, append_cons]
          refine ihcs (done ++ [c]) _ (fun c' hc' => hcs c' (mem_cons_of_mem _ hc')) hstep
            fun c' hc' => ?_
          rw [meet] at hc'
          split at hc'
          · exact hoccurs c' hc'
          · rcases mem_append.mp hc' with hold | hnew
            · exact hoccurs c' hold
            · refine mem_occurrences_of_nested hc ?_
              rcases mem_cons.mp hnew with rfl | hnew
              · exact self_mem_occurrences c'
              · exact hbelow c' hnew
      have hbelow : belowTo relations (depth + 1) met o =
          (nested relations o).foldl (meet (belowTo relations depth)) ([], o.key :: met) := by
        rw [belowTo, hschema]
      obtain ⟨hclosed, hoccurs⟩ := hfold (nested relations o) [] ([], o.key :: met)
        (fun _ h => h) ⟨fun _ h => (by cases h), fun _ h => (by cases h), fun _ h => .inl h⟩
        fun _ h => (by cases h)
      rw [nil_append, ← hbelow] at hclosed
      rw [← hbelow] at hoccurs
      refine ⟨fun o' ho' c hc => ?_, fun key hkey => ?_, hoccurs⟩
      · rcases mem_cons.mp ho' with rfl | hmem
        · exact (hclosed.done c hc).imp_left (mem_cons_of_mem _)
        · exact (hclosed.nested o' hmem c hc).imp_left (mem_cons_of_mem _)
      · rcases hclosed.met key hkey with hold | ⟨c, hc, heq⟩
        · rcases mem_cons.mp hold with rfl | hmem
          · exact .inr ⟨o, mem_cons_self, rfl⟩
          · exact .inl hmem
        · exact .inr ⟨c, mem_cons_of_mem _ hc, heq⟩

theorem mem_unrepeated {o o' : Occurrence}
    (hcoherent : ∀ a ∈ occurrences relations o, ∀ b ∈ occurrences relations o,
      a.key = b.key → a = b)
    (h : o' ∈ occurrences relations o) : o' ∈ unrepeated relations o := by
  obtain ⟨hnested, hmet, hoccurs⟩ :
      BelowClosed relations (Js.depthEntries o.data.entries + 1) [] o :=
    below_closed _ [] o (Nat.lt_succ_self _)
  have hsub : ∀ c ∈ unrepeated relations o, c ∈ occurrences relations o := by
    intro c hc
    rcases mem_cons.mp hc with rfl | hc
    · exact self_mem_occurrences c
    · exact hoccurs c hc
  have hclosed : ∀ b ∈ unrepeated relations o, ∀ c ∈ nested relations b,
      c ∈ unrepeated relations o := by
    intro b hb c hc
    rcases hnested b hb c hc with hmem | hkey
    · exact hmem
    · rcases hmet c.key hkey with hnone | ⟨c', hc', heq⟩
      · cases hnone
      · have hsame := hcoherent c' (hsub c' hc') c
          (nested_mem_occurrences (hsub b hb) hc) heq
        exact hsame ▸ hc'
  have hall : ∀ depth (b : Occurrence), b ∈ unrepeated relations o →
      ∀ c ∈ occurrencesTo relations depth b, c ∈ unrepeated relations o := by
    intro depth
    induction depth with
    | zero => exact fun _ _ _ h => by cases h
    | succ depth ih =>
      intro b hb c hc
      rcases mem_cons.mp hc with rfl | hc
      · exact hb
      · obtain ⟨m, hm, hc⟩ := mem_flatMap.mp hc
        exact ih m (hclosed b hb m hm) c hc
  exact hall _ o mem_cons_self o' h

/-! ### The store after the merge -/

theorem mergedEntry_same {n : Entity} {entry : Option EntityEntry}
    (h : entry = none ∨ entry = some (ofItem n)) :
    EntityStore.mergedEntry n entry = ofItem n := by
  rcases h with rfl | rfl
  · rfl
  · show (ofItem n).mergeItem n = _
    rw [mergeItem]
    refine if_pos (shallowEqual_of_same fun key => ?_)
    show n.get? key = (shallowMerge n n).get? key
    rw [get?_shallowMerge]
    cases n.get? key with
    | none => rfl
    | some v =>
      rw [Option.filter_some]
      split <;> rfl

/-- An entity that is merged with the same content again stays as it is. -/
theorem entryAfter_same {items : List Entity} {id : String} {n : Entity}
    (h : ∀ item ∈ items, idOf item = id → item = n) {entry : Option EntityEntry}
    (hentry : entry = none ∨ entry = some (ofItem n)) :
    (entryAfter items id entry = none ∨
        entryAfter items id entry = some (ofItem n)) ∧
      ((∃ item ∈ items, idOf item = id) ∨ entry = some (ofItem n) →
        entryAfter items id entry = some (ofItem n)) := by
  induction items generalizing entry with
  | nil =>
    refine ⟨hentry, fun h => ?_⟩
    rcases h with ⟨item, hitem, _⟩ | hsome
    · cases hitem
    · exact hsome
  | cons item items ih =>
    have hrest := fun i hi => h i (mem_cons_of_mem _ hi)
    rw [entryAfter, foldl_cons, ← entryAfter]
    by_cases hid : idOf item = id
    · rw [if_pos hid, h item mem_cons_self hid, mergedEntry_same hentry]
      have hsome : some (ofItem n) = none ∨
          some (ofItem n) = some (ofItem n) := .inr rfl
      have hall := ih hrest hsome
      exact ⟨hall.1, fun _ => hall.2 (.inr rfl)⟩
    · rw [if_neg hid]
      refine ⟨(ih hrest hentry).1, fun hsome => (ih hrest hentry).2 (hsome.imp_left ?_)⟩
      rintro ⟨i, hi, heq⟩
      rcases mem_cons.mp hi with rfl | hi
      · exact absurd heq hid
      · exact ⟨i, hi, heq⟩

theorem exists_of_forall₂ {α β : Type} {R : α → β → Prop} {xs : List α} {ys : List β}
    (h : List.Forall₂ R xs ys) :
    (∀ x ∈ xs, ∃ y ∈ ys, R x y) ∧ ∀ y ∈ ys, ∃ x ∈ xs, R x y := by
  induction h with
  | nil => exact ⟨fun _ h => (by cases h), fun _ h => (by cases h)⟩
  | @cons x y xs ys hxy _ ih =>
    refine ⟨fun x' hx' => ?_, fun y' hy' => ?_⟩
    · rcases mem_cons.mp hx' with rfl | hx'
      · exact ⟨y, mem_cons_self, hxy⟩
      · obtain ⟨y', hy', hxy'⟩ := ih.1 x' hx'
        exact ⟨y', mem_cons_of_mem _ hy', hxy'⟩
    · rcases mem_cons.mp hy' with rfl | hy'
      · exact ⟨x, mem_cons_self, hxy⟩
      · obtain ⟨x', hx', hxy'⟩ := ih.2 y' hy'
        exact ⟨x', mem_cons_of_mem _ hx', hxy'⟩

theorem key_eq {o o' : Occurrence} (htype : o.type = o'.type) (hid : o.id = o'.id) :
    o.key = o'.key := by rw [Occurrence.key, Occurrence.key, htype, hid]

theorem hasId_nested {o c : Occurrence} (h : c ∈ nested relations o) :
    ∃ id, field c.data "id" = .str id := by
  rw [nested] at h
  split at h
  · cases h
  · obtain ⟨e, _, hc⟩ := mem_flatMap.mp h
    rw [entitiesIn] at hc
    split at hc
    · obtain ⟨n, hn, rfl⟩ := mem_map.mp hc
      exact ⟨n.2, field_nestedEntity (Option.mem_toList.mp hn)⟩
    · obtain ⟨value, _, hmap⟩ := mem_filterMap.mp hc
      obtain ⟨n, hn, rfl⟩ := Option.map_eq_some_iff.mp hmap
      exact ⟨n.2, field_nestedEntity hn⟩
    · cases hc

namespace Arrival

variable {a : Arrival relations} {o : Occurrence}

theorem mem_unrepeated (h : o ∈ occurrences relations a.root) : o ∈ unrepeated relations a.root :=
  Spec.mem_unrepeated a.coherent h

theorem unrepeated_occurs (h : o ∈ unrepeated relations a.root) :
    o ∈ occurrences relations a.root := by
  rcases mem_cons.mp h with rfl | h
  · exact self_mem_occurrences a.root
  · exact (below_closed _ [] a.root (Nat.lt_succ_self _)).occurs o h

/-- The store holds every occurrence as it is stored. -/
theorem entryAt_merged (h : o ∈ occurrences relations a.root) :
    a.merged.entryAt o.type o.id = some (ofItem (storedEntity relations o)) := by
  let below := (belowTo relations (Js.depthEntries a.item.data.entries + 1) [] a.root).1
  let items := ofType (normalizeEntity relations a.type a.item.data).extracted o.type
  have hfresh := fresh_normalize a.type a.item.data
  have hroot : StoredAs relations (normalizeEntity relations a.type a.item.data).normalized
      a.root := storedAs_walk hfresh a.item.hasId
  have hitems : List.Forall₂ (StoredAs relations) items (below.filter fun c => c.type = o.type) :=
    (tracks_walk hfresh).collected o.type
  have hsame : ∀ c ∈ unrepeated relations a.root, c.type = o.type → c.id = o.id → c = o :=
    fun c hc htype hid => a.coherent c (unrepeated_occurs hc) o h (key_eq htype hid)
  have honly : ∀ item ∈ items, idOf item = o.id → item = storedEntity relations o := by
    intro item hitem hid
    obtain ⟨c, hc, hstored⟩ := (exists_of_forall₂ hitems).1 item hitem
    obtain ⟨hmem, htype⟩ := mem_filter.mp hc
    have heq := hsame c (mem_cons_of_mem _ hmem) (of_decide_eq_true htype)
      (hstored.id.symm.trans hid)
    rw [hstored.entity, heq]
  have hnone : (a.store.evictOrphans EntityStore.defaultMaxAge a.now).1.entryAt o.type o.id =
      none := by
    rw [EntityStore.entryAt_evictOrphans, a.unknown o h]
    rfl
  have hafter := entryAfter_same honly (.inl hnone)
  show (EntityStore.mergeItem relations a.type _ a.item.data).entryAt o.type o.id = _
  rw [entryAt_mergeItem, hroot.id]
  by_cases hthis : a.type = o.type ∧ a.root.id = o.id
  · have heq := hsame a.root mem_cons_self hthis.1 hthis.2
    rw [if_pos hthis, hroot.entity, heq, mergedEntry_same hafter.1]
  · rw [if_neg hthis]
    refine hafter.2 (.inl ?_)
    rcases mem_cons.mp (mem_unrepeated h) with rfl | hbelow
    · exact absurd ⟨rfl, rfl⟩ hthis
    · obtain ⟨item, hitem, hstored⟩ := (exists_of_forall₂ hitems).2 o
        (mem_filter.mpr ⟨hbelow, decide_eq_true rfl⟩)
      exact ⟨item, hitem, hstored.id⟩

theorem value_merged (h : o ∈ occurrences relations a.root) :
    a.merged.value o.type o.id = some (storedEntity relations o) := by
  rw [EntityStore.value, EntityStore.get_value, entryAt_merged h]
  rfl

/-! ### Resolving the root -/

theorem mem_nested {schema : RelationSchema} (hschema : relations o.type = some schema)
    {e : String × RelationFieldDef} (he : e ∈ schema.entries) {c : Occurrence}
    (hc : c ∈ entitiesIn o.data e) : c ∈ nested relations o := by
  rw [nested, hschema]
  exact mem_flatMap.mpr ⟨e, he, hc⟩

/-- What holds of resolving the entities below an occurrence. -/
def ResolvesBelow (relations : Relations) (nest : String → Entity → Unit → Entity × Unit)
    (o : Occurrence) : Prop :=
  ∀ c ∈ nested relations o, nest c.type (storedEntity relations c) () = (c.data, ())

variable {nest : String → Entity → Unit → Entity × Unit}

theorem resolve_nested (ho : o ∈ occurrences relations a.root) (hbelow : ResolvesBelow relations nest o)
    {type : String} {value : Js} {n : Entity} {id : String}
    (hnested : nestedEntity value = some (n, id)) (hc : ⟨type, n⟩ ∈ nested relations o)
    (hwritten : Written value) :
    ∃ m, a.merged.value type id = some m ∧ .obj (nest type m ()).1.entries = value := by
  have hvalue := value_merged (nested_mem_occurrences ho hc)
  have hid : Occurrence.id ⟨type, n⟩ = id := idOf_nestedEntity hnested
  rw [hid] at hvalue
  refine ⟨_, hvalue, ?_⟩
  rw [hbelow _ hc]
  exact (hwritten (n, id) hnested).symm

theorem resolvedElement_bareRef (ho : o ∈ occurrences relations a.root)
    (hbelow : ResolvesBelow relations nest o) {type : String} {element : Js}
    (hc : ∀ n id, nestedEntity element = some (n, id) → ⟨type, n⟩ ∈ nested relations o)
    (hobject : isObject element = true) (hwritten : Written element) :
    resolvedElement nest a.merged type (bareRef element) () = [element] := by
  cases hnested : nestedEntity element with
  | none =>
    rw [bareRef_of_none hnested]
    cases element with
    | obj entries => rfl
    | arr elements => rfl
    | _ => cases hobject
  | some e =>
    obtain ⟨n, id⟩ := e
    obtain ⟨m, hvalue, heq⟩ := resolve_nested ho hbelow hnested (hc n id hnested) hwritten
    have hbare : bareRef element = .str id := by rw [bareRef, hnested]
    rw [hbare, resolvedElement, resolveElement]
    simp only [hvalue, nil_append, heq]

theorem resolvedElements_bareRef {type : String} {elements : List Js}
    (h : ∀ element ∈ elements,
      resolvedElement nest a.merged type (bareRef element) () = [element]) :
    resolvedElements nest a.merged type (elements.map bareRef) () = elements := by
  induction elements with
  | nil => rfl
  | cons element elements ih =>
    have hrest := ih fun e he => h e (mem_cons_of_mem _ he)
    rw [map_cons, resolvedElements, h element mem_cons_self]
    exact congrArg (element :: ·) hrest

theorem resolvedValue_stored (ho : o ∈ occurrences relations a.root)
    (hbelow : ResolvesBelow relations nest o) {schema : RelationSchema}
    (hschema : relations o.type = some schema) {name : String} {rel : RelationFieldDef}
    (he : (name, rel) ∈ schema.entries) :
    (resolvedValue nest a.merged rel (storedValue rel (field o.data name)) ()).or
        (some (storedValue rel (field o.data name))) = some (field o.data name) := by
  have hflat := a.flat o ho schema hschema (name, rel) he
  have hwritten := a.written o ho schema hschema (name, rel) he
  have hchild : ∀ c ∈ entitiesIn o.data (name, rel), c ∈ nested relations o :=
    fun c hc => mem_nested hschema he hc
  obtain ⟨type, entity⟩ := rel
  cases type with
  | one =>
    cases hnested : nestedEntity (field o.data name) with
    | none =>
      show (resolvedValue nest a.merged _ (bareRef _) ()).or (some (bareRef _)) = _
      rw [bareRef_of_none hnested]
      cases hvalue : field o.data name with
      | str id =>
        simp only [hvalue] at hflat
        cases hflat
      | _ => rfl
    | some e =>
      obtain ⟨n, id⟩ := e
      have hc : (⟨entity, n⟩ : Occurrence) ∈ nested relations o := hchild _ (by
        simp only [entitiesIn, hnested, Option.toList_some, map_cons, map_nil,
          mem_singleton])
      obtain ⟨m, hvalue, heq⟩ := resolve_nested ho hbelow hnested hc hwritten
      have hbare : bareRef (field o.data name) = .str id := by rw [bareRef, hnested]
      show (resolvedValue nest a.merged _ (bareRef _) ()).or (some (bareRef _)) = _
      simp only [hbare, resolvedValue, hvalue, heq, Option.some_or]
  | many =>
    cases hvalue : field o.data name with
    | arr elements =>
      simp only [hvalue] at hflat hwritten
      have helements : ∀ element ∈ elements,
          resolvedElement nest a.merged entity (bareRef element) () = [element] := by
        intro element hmem
        refine resolvedElement_bareRef ho hbelow (fun n id hnested => hchild _ ?_)
          (hflat element hmem) (hwritten element hmem)
        simp only [entitiesIn, hvalue]
        exact mem_filterMap.mpr ⟨element, hmem, by rw [hnested]; rfl⟩
      show (some (Js.arr (resolvedElements nest a.merged entity (elements.map bareRef) ()))).or _
        = _
      rw [resolvedElements_bareRef helements]
      rfl
    | _ => rfl

theorem keys_fields {S : Type} {nest : String → Entity → S → Entity × S} {store : EntityStore}
    (entity : Entity) (rels : List (String × RelationFieldDef)) (s : S) :
    (rels.foldl (resolveField nest store entity) (entity, s)).1.keys = entity.keys := by
  refine List.foldlRecOn rels (motive := fun acc : Entity × S => acc.1.keys = entity.keys) _ rfl
    fun acc hacc e _ => ?_
  rw [resolveField_eq]
  cases hvalue : resolvedValue nest store e.2 (field entity e.1) acc.2 with
  | none => exact hacc
  | some value =>
    refine keys_insert_of_field hacc fun h => ?_
    rw [h] at hvalue
    obtain ⟨name, type, related⟩ := e
    cases type <;> cases hvalue

/-- An entity whose references are resolved to what they were is. -/
theorem resolveFields_stored (ho : o ∈ occurrences relations a.root)
    (hbelow : ResolvesBelow relations nest o) {schema : RelationSchema}
    (hschema : relations o.type = some schema) :
    (resolveFields nest a.merged schema (storedEntity relations o) ()).1 = o.data := by
  have hstored : ∀ key, (storedEntity relations o).get? key =
      (o.data.get? key).map (storedField schema key) := fun key => by
    refine (get?_walk (fresh_normalize o.type o.data) key).trans ?_
    rw [hschema]
  have hfields : ∀ key, field (storedEntity relations o) key =
      storedField schema key (field o.data key) := fun key => by
    rw [field, field, hstored]
    cases o.data.get? key with
    | none => exact (storedField_undefined schema key).symm
    | some value => rfl
  refine Record.eq_of_keys ((keys_fields _ _ _).trans (keys_walk (fresh_normalize _ _)))
    fun key => ?_
  cases hrel : schema.get? key with
  | none =>
    have hout : key ∉ schema.entries.map Prod.fst := fun hmem => by
      have hsome := (schema.mem_keys_iff).mp hmem
      rw [hrel] at hsome
      cases hsome
    refine (get?_fields_of_not_mem _ hout _).trans ((hstored key).trans ?_)
    have hid : storedField schema key = id := by
      funext value
      rw [storedField, hrel]
      rfl
    rw [hid, Option.map_id]
    rfl
  | some rel =>
    have he : (key, rel) ∈ schema.entries := (schema.mem_entries_iff).mpr hrel
    have hvalue := resolvedValue_stored ho hbelow hschema he
    have hfield : storedField schema key = storedValue rel := by
      funext value
      rw [storedField, hrel]
    obtain ⟨s, hs⟩ : ∃ s, (resolveFields nest a.merged schema (storedEntity relations o)
        ()).1.get? key = (resolvedValue nest a.merged rel
          (field (storedEntity relations o) key) s).or ((storedEntity relations o).get? key) :=
      get?_fields_of_mem _ schema.nodup he (storedEntity relations o, ())
    refine hs.trans ?_
    rw [hfields, hstored, hfield]
    cases hget : o.data.get? key with
    | none =>
      have hundefined : field o.data key = .undefined := by
        rw [field, hget]
        rfl
      obtain ⟨type, related⟩ := rel
      rw [hundefined]
      cases type <;> rfl
    | some value =>
      have hread : field o.data key = value := by
        rw [field, hget]
        rfl
      rw [hread] at hvalue ⊢
      exact hvalue

theorem storedAs (ho : o ∈ occurrences relations a.root) :
    StoredAs relations (storedEntity relations o) o := by
  have hid : ∃ id, field o.data "id" = .str id := by
    have hnested : ∀ depth (b : Occurrence), (∃ id, field b.data "id" = .str id) →
        o ∈ occurrencesTo relations depth b → ∃ id, field o.data "id" = .str id := by
      intro depth
      induction depth with
      | zero => exact fun _ _ h => by cases h
      | succ depth ih =>
        intro b hb hmem
        rcases mem_cons.mp hmem with rfl | hmem
        · exact hb
        · obtain ⟨c, hc, hmem⟩ := mem_flatMap.mp hmem
          exact ih c (hasId_nested hc) hmem
    exact hnested _ a.root ⟨a.item.id, a.item.hasId⟩ ho
  exact storedAs_walk (fresh_normalize o.type o.data) hid.choose_spec

/-- With the ancestors alone every occurrence is resolved to itself. -/
theorem resolveWithin_stored (fuel : ℕ) (ancestors : List String)
    (ho : o ∈ occurrences relations a.root)
    (hancestors : ∀ b ∈ occurrences relations o, b.key ∉ ancestors)
    (hfuel : a.merged.Enough fuel o.key ancestors) :
    resolveWithin relations a.merged fuel ancestors ⟨o.type, storedEntity relations o⟩ =
      o.data := by
  induction fuel generalizing ancestors o with
  | zero => exact absurd hfuel.enough (Nat.not_lt_zero _)
  | succ fuel ih =>
    have hkey : Occurrence.key ⟨o.type, storedEntity relations o⟩ = o.key :=
      congrArg (visitKey o.type) (storedAs ho).id
    have hself : o.key ∉ ancestors := hancestors o (self_mem_occurrences o)
    cases hschema : relations o.type with
    | none =>
      simp only [resolveWithin, hschema]
      refine Record.eq_of_keys (keys_walk (fresh_normalize o.type o.data)) fun key => ?_
      refine (get?_walk (fresh_normalize o.type o.data) key).trans ?_
      rw [hschema]
    | some schema =>
      simp only [resolveWithin, hschema, hkey, if_neg hself]
      refine resolveFields_stored ho (fun c hc => Prod.ext ?_ rfl) hschema
      have hoccurs := nested_mem_occurrences ho hc
      refine ih (o.key :: ancestors) hoccurs (fun b hb hmem => ?_) ⟨hfuel.next hself, .inl ?_⟩
      · rcases mem_cons.mp hmem with heq | hmem
        · exact a.acyclic o ho c hc b hb heq
        · exact hancestors b (mem_occurrences_of_nested hc hb) hmem
      · have hvalue := EntityStore.mem_valueKeys (value_merged hoccurs)
        rw [(storedAs hoccurs).id] at hvalue
        exact hvalue

/-- A payload makes the round trip exactly when its merged root is resolved
by ancestors alone. -/
theorem roundTrips_iff (a : Arrival relations) :
    a.RoundTrips ↔
      ResolvesByAncestors relations a.merged ⟨a.type, storedEntity relations a.root⟩ := by
  have hroot : a.root ∈ occurrences relations a.root := self_mem_occurrences a.root
  have hid : a.root.id = a.item.id := by
    show idOf a.item.data = a.item.id
    rw [idOf, a.item.hasId]
  have hvalue : a.merged.value a.type a.item.id = some (storedEntity relations a.root) :=
    hid ▸ value_merged hroot
  have hwithin := resolveWithin_stored (a := a) (a.merged.valueKeys.length + 2) [] hroot
    (fun _ _ h => (by cases h)) (a.merged.enough_resolve a.root.key)
  rw [RoundTrips, ResolvesByAncestors]
  constructor
  · rintro ⟨root, hsome, hresolved⟩
    obtain rfl := Option.some.inj (hvalue.symm.trans hsome)
    exact hresolved.trans hwithin.symm
  · exact fun h => ⟨_, hvalue, h.trans hwithin⟩

end Arrival

/-- References are resolved from the store and the ancestors alone, and a
payload tree makes the round trip, exactly when what is come to a second
time, and not below itself, is flat. -/
theorem shared_flat_iff (relations : Relations) :
    (∀ store o, ResolvesByAncestors relations store o ↔ SharedFlat relations store o) ∧
      ∀ a : Arrival relations, a.RoundTrips ↔
        SharedFlat relations a.merged ⟨a.type, storedEntity relations a.root⟩ :=
  ⟨fun _ o => resolvesByAncestors_iff o, fun a =>
    (Arrival.roundTrips_iff a).trans (resolvesByAncestors_iff _)⟩

/-- A user with an organization is the author and the reviewer. -/
def reviewedPost : Payload where
  data :=
    let user : Js := .obj [("id", .str "u1"), ("org", .obj [("id", .str "o1")])]
    .ofList [("id", .str "p1"), ("author", user), ("reviewer", user)]
  id := "p1"
  hasId := rfl

def reviewed : Arrival postRelations where
  type := "posts"
  item := reviewedPost
  store := .empty
  now := 0
  flat := by decide
  written := by decide
  acyclic := by decide
  coherent := by decide
  unknown := fun _ _ => rfl

/-- The author is resolved with the organization, the reviewer is left with
its id. -/
theorem second_reference_raw :
    ¬ ∀ relations : Relations,
      (∀ store o, ResolvesByAncestors relations store o) ∧
        ∀ a : Arrival relations, a.RoundTrips := by
  intro h
  have halike := (h postRelations).1 reviewed.merged
    ⟨"posts", storedEntity postRelations reviewed.root⟩
  have hreviewer := congrArg (fun entity => field entity "reviewer") halike
  revert hreviewer
  decide

end Vertz.Spec
