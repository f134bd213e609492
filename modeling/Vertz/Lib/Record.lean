import Mathlib.Data.List.Nodup

/-!
# `Vertz.Lib.Record`: insertion-ordered records

A record is a list of key/value entries whose keys are distinct, kept in
insertion order. `insert` overwrites an existing key in place and
appends a new one; `spread` inserts every entry of a second record into
the first, so the second wins on a shared key.

The theorems:

* `get?_insert`: insertion changes exactly one observable key.
* `get?_modify`: modifying a key changes what is there and nothing else.
* `get?_spread`: a spread reads its right operand first.
* `mem_entries_iff`: an entry is in the record exactly when the record
  maps its key to its value.
* `get?_filter`: filtering on keys hides exactly the rejected keys.
* `entries_ofList`: building a record from distinct keys keeps them.
* `erase_insert_ne`, `erase_insert_self`: erasing a key undoes writing
  it and commutes with writing any other.
-/

namespace Vertz.Lib

open List

/-- An insertion-ordered record with distinct keys. -/
structure Record (α : Type) where
  entries : List (String × α)
  nodup : (entries.map Prod.fst).Nodup

namespace Record

variable {α β : Type}

/-- The value of the first entry under a key. -/
def lookup (k : String) : List (String × α) → Option α
  | [] => none
  | (k', v) :: es => if k' = k then some v else lookup k es

/-- Overwrite the entry under `k` in place, or append one. -/
def put (k : String) (v : α) : List (String × α) → List (String × α)
  | [] => [(k, v)]
  | (k', v') :: es => if k' = k then (k', v) :: es else (k', v') :: put k v es

theorem lookup_put (k k' : String) (v : α) (es : List (String × α)) :
    lookup k' (put k v es) = if k = k' then some v else lookup k' es := by
  induction es with
  | nil => rfl
  | cons e es ih =>
    obtain ⟨j, w⟩ := e
    by_cases hj : j = k
    · subst hj
      by_cases hk : j = k' <;> simp [put, lookup, hk]
    · by_cases hk : j = k'
      · subst hk
        have hne : ¬ k = j := fun h => hj h.symm
        simp [put, lookup, hj, hne]
      · simp [put, lookup, hj, hk, ih]

theorem keys_put (k : String) (v : α) (es : List (String × α)) :
    (put k v es).map Prod.fst =
      if k ∈ es.map Prod.fst then es.map Prod.fst else es.map Prod.fst ++ [k] := by
  induction es with
  | nil => rfl
  | cons e es ih =>
    obtain ⟨j, w⟩ := e
    by_cases hj : j = k
    · subst hj
      simp [put]
    · have hne : ¬ k = j := fun h => hj h.symm
      by_cases hm : k ∈ es.map Prod.fst
      · rw [if_pos hm] at ih
        rw [if_pos (by rw [map_cons]; exact mem_cons_of_mem _ hm)]
        simp [put, hj, ih]
      · rw [if_neg hm] at ih
        rw [if_neg (by rw [map_cons, mem_cons]; exact not_or.mpr ⟨hne, hm⟩)]
        simp [put, hj, ih]

variable {k : String} {v : α} {es : List (String × α)}

theorem put_nodup (h : (es.map Prod.fst).Nodup) : ((put k v es).map Prod.fst).Nodup := by
  rw [keys_put]
  split
  · exact h
  · rename_i hm
    exact List.Nodup.append h (nodup_singleton k) (by simpa using hm)

theorem lookup_isSome_iff : (lookup k es).isSome ↔ k ∈ es.map Prod.fst := by
  induction es with
  | nil => simp [lookup]
  | cons e es ih =>
    obtain ⟨j, w⟩ := e
    by_cases hj : j = k
    · simp [lookup, hj]
    · have hne : ¬ k = j := fun h => hj h.symm
      simp [lookup, hj, hne, ih]

/-- With distinct keys, membership and lookup agree. -/
theorem mem_iff_lookup (h : (es.map Prod.fst).Nodup) : (k, v) ∈ es ↔ lookup k es = some v := by
  induction es with
  | nil => simp [lookup]
  | cons e es ih =>
    obtain ⟨j, w⟩ := e
    rw [map_cons, nodup_cons] at h
    by_cases hj : j = k
    · subst hj
      have hout : (j, v) ∉ es := fun hmem => h.1 (mem_map.mpr ⟨(j, v), hmem, rfl⟩)
      simp [lookup, hout, eq_comm]
    · have hne : ¬ k = j := fun h => hj h.symm
      simp [lookup, hj, hne, ih h.2]

theorem lookup_append (k : String) (es fs : List (String × α)) :
    lookup k (es ++ fs) = (lookup k es).or (lookup k fs) := by
  induction es with
  | nil => rfl
  | cons e es ih =>
    obtain ⟨j, w⟩ := e
    by_cases hj : j = k
    · simp [lookup, hj]
    · simp [lookup, hj, ih]

/-- The value of the last entry under a key. -/
def lookupLast (k : String) (es : List (String × α)) : Option α := lookup k es.reverse

theorem lookupLast_append (k : String) (es fs : List (String × α)) :
    lookupLast k (es ++ fs) = (lookupLast k fs).or (lookupLast k es) := by
  unfold lookupLast
  rw [reverse_append, lookup_append]

theorem mem_of_lookup (h : lookup k es = some v) : (k, v) ∈ es := by
  induction es with
  | nil => cases h
  | cons e es ih =>
    obtain ⟨j, w⟩ := e
    by_cases hj : j = k
    · rw [lookup, if_pos hj, Option.some.injEq] at h
      rw [hj, h]
      exact mem_cons_self
    · rw [lookup, if_neg hj] at h
      exact mem_cons_of_mem _ (ih h)

theorem mem_of_lookupLast (h : lookupLast k es = some v) : (k, v) ∈ es :=
  mem_reverse.mp (mem_of_lookup h)

/-- With distinct keys, the last entry under a key is the only one. -/
theorem lookupLast_of_nodup (h : (es.map Prod.fst).Nodup) (k : String) :
    lookupLast k es = lookup k es := by
  have hrev : ((es.reverse).map Prod.fst).Nodup := by
    rw [map_reverse]
    exact nodup_reverse.mpr h
  refine Option.ext fun v => ?_
  unfold lookupLast
  rw [← mem_iff_lookup hrev, mem_reverse, mem_iff_lookup h]

/-! ### Records -/

def empty : Record α := ⟨[], nodup_nil⟩

def get? (r : Record α) (k : String) : Option α := lookup k r.entries

def keys (r : Record α) : List String := r.entries.map Prod.fst

def insert (r : Record α) (k : String) (v : α) : Record α :=
  ⟨put k v r.entries, put_nodup r.nodup⟩

/-- Insert the entries of a list, first to last. -/
def insertAll (r : Record α) (es : List (String × α)) : Record α :=
  es.foldl (fun acc e => acc.insert e.1 e.2) r

/-- Apply a function to the value under `k`, if there is one. -/
def modify (r : Record α) (k : String) (f : α → α) : Record α :=
  match r.get? k with
  | some v => r.insert k (f v)
  | none => r

/-- The record of a list of entries; a later entry overwrites an earlier
one of the same key. -/
def ofList (es : List (String × α)) : Record α := empty.insertAll es

/-- The entries of `a`, overwritten and extended by those of `b`. -/
def spread (a b : Record α) : Record α := a.insertAll b.entries

/-- The entries whose key passes the test. -/
def filter (r : Record α) (p : String → Bool) : Record α :=
  ⟨r.entries.filter fun e => p e.1,
    (filter_sublist.map Prod.fst).nodup r.nodup⟩

/-- The entries whose key and value pass the test. -/
def filterEntries (r : Record α) (p : String × α → Bool) : Record α :=
  ⟨r.entries.filter p, (filter_sublist.map Prod.fst).nodup r.nodup⟩

/-- The record with every value mapped. -/
def mapValues (r : Record α) (f : α → β) : Record β :=
  ⟨r.entries.map fun e => (e.1, f e.2), by
    rw [map_map]
    exact r.nodup⟩

/-- Keep the entries that the function gives a value. -/
def filterMapValues (r : Record α) (f : α → Option β) : Record β where
  entries := r.entries.filterMap fun e => (f e.2).map (Prod.mk e.1)
  nodup := by
    have hdistinct := pairwise_map.mp (nodup_iff_pairwise_ne.mp r.nodup)
    rw [nodup_iff_pairwise_ne, pairwise_map]
    refine hdistinct.filterMap _ fun e e' hne b hb b' hb' => ?_
    obtain ⟨v, -, rfl⟩ := Option.map_eq_some_iff.mp hb
    obtain ⟨v', -, rfl⟩ := Option.map_eq_some_iff.mp hb'
    exact hne

@[simp] theorem get?_empty (k : String) : (empty : Record α).get? k = none := rfl

theorem keys_insert_of_mem {r : Record α} (h : k ∈ r.keys) :
    (r.insert k v).keys = r.keys := (keys_put k v r.entries).trans (if_pos h)

variable (r : Record α)

/-- Insertion changes exactly one observable key. -/
theorem get?_insert (k k' : String) (v : α) :
    (r.insert k v).get? k' = if k = k' then some v else r.get? k' :=
  lookup_put k k' v r.entries

@[simp] theorem get?_insert_self (k : String) (v : α) : (r.insert k v).get? k = some v := by
  rw [get?_insert, if_pos rfl]

/-- Modifying a key changes what is there and nothing else. -/
theorem get?_modify (k k' : String) (f : α → α) :
    (r.modify k f).get? k' = if k = k' then (r.get? k').map f else r.get? k' := by
  unfold modify
  by_cases hk : k = k'
  · subst hk
    rw [if_pos rfl]
    cases hv : r.get? k with
    | none => simpa using hv
    | some v => simp
  · rw [if_neg hk]
    cases r.get? k with
    | none => rfl
    | some v => exact (get?_insert r k k' (f v)).trans (if_neg hk)

/-- An entry is in a record exactly when the record maps its key to its
value. -/
theorem mem_entries_iff : (k, v) ∈ r.entries ↔ r.get? k = some v :=
  mem_iff_lookup r.nodup

theorem mem_keys_iff : k ∈ r.keys ↔ (r.get? k).isSome :=
  lookup_isSome_iff.symm

theorem get?_filterMapValues (f : α → Option β) (k : String) :
    (r.filterMapValues f).get? k = (r.get? k).bind f := by
  refine Option.ext fun w => ?_
  rw [← mem_entries_iff, Option.bind_eq_some_iff]
  simp [filterMapValues, ← mem_entries_iff]

theorem get?_insertAll (es : List (String × α)) (h : (es.map Prod.fst).Nodup) (k : String) :
    (r.insertAll es).get? k = (lookup k es).or (r.get? k) := by
  induction es generalizing r with
  | nil => rfl
  | cons e es ih =>
    obtain ⟨j, w⟩ := e
    rw [map_cons, nodup_cons] at h
    have hstep : (r.insertAll ((j, w) :: es)) = (r.insert j w).insertAll es := rfl
    rw [hstep, ih _ h.2, get?_insert]
    by_cases hj : j = k
    · subst hj
      have hout : lookup j es = none := by
        rw [← Option.not_isSome_iff_eq_none, lookup_isSome_iff]
        exact h.1
      simp [lookup, hout]
    · simp [lookup, hj]

theorem get?_insertAll_map (ks : List String) (f : String → α) (k : String) :
    (r.insertAll (ks.map fun k => (k, f k))).get? k = if k ∈ ks then some (f k) else r.get? k := by
  induction ks generalizing r with
  | nil => rfl
  | cons j ks ih =>
    have hstep : r.insertAll ((j :: ks).map fun k => (k, f k))
        = (r.insert j (f j)).insertAll (ks.map fun k => (k, f k)) := rfl
    rw [hstep, ih, get?_insert]
    by_cases hj : j = k
    · simp [hj]
    · have hne : ¬ k = j := fun h => hj h.symm
      simp [hj, hne]

/-- A spread reads its right operand first. -/
theorem get?_spread (a b : Record α) (k : String) :
    (a.spread b).get? k = (b.get? k).or (a.get? k) :=
  get?_insertAll a b.entries b.nodup k

/-- A fresh key is appended. -/
theorem put_of_not_mem (h : k ∉ es.map Prod.fst) : put k v es = es ++ [(k, v)] := by
  induction es with
  | nil => rfl
  | cons e es ih =>
    obtain ⟨j, w⟩ := e
    rw [map_cons, mem_cons, not_or] at h
    have hj : ¬ j = k := fun hjk => h.1 hjk.symm
    simp [put, hj, ih h.2]

theorem entries_ofList (h : (es.map Prod.fst).Nodup) : (ofList es).entries = es := by
  have key : ∀ (es : List (String × α)) (r : Record α),
      ((r.entries ++ es).map Prod.fst).Nodup → (r.insertAll es).entries = r.entries ++ es := by
    intro es
    induction es with
    | nil => exact fun r _ => (append_nil _).symm
    | cons e es ih =>
      intro r hr
      have hfresh : e.1 ∉ r.entries.map Prod.fst := by
        rw [map_append, map_cons] at hr
        exact fun hmem => (disjoint_of_nodup_append hr) hmem mem_cons_self
      have hput : (r.insert e.1 e.2).entries = r.entries ++ [e] := put_of_not_mem hfresh
      have hstep : r.insertAll (e :: es) = (r.insert e.1 e.2).insertAll es := rfl
      rw [hstep, ih, hput, append_assoc, singleton_append]
      rw [hput, append_assoc, singleton_append]
      exact hr
  exact key es empty h

theorem put_map (g : α → β) (k : String) (v : α) (es : List (String × α)) :
    put k (g v) (es.map fun e => (e.1, g e.2)) = (put k v es).map fun e => (e.1, g e.2) := by
  induction es with
  | nil => rfl
  | cons e es ih =>
    obtain ⟨j, w⟩ := e
    by_cases hj : j = k
    · simp [put, hj]
    · simp [put, hj, ih]

/-- The record of mapped entries is the mapped record. -/
theorem ofList_mapValues (g : α → β) (es : List (String × α)) :
    ofList (es.map fun e => (e.1, g e.2)) = (ofList es).mapValues g := by
  have key : ∀ (es : List (String × α)) (r : Record α),
      (r.mapValues g).insertAll (es.map fun e => (e.1, g e.2)) = (r.insertAll es).mapValues g := by
    intro es
    induction es with
    | nil => exact fun r => rfl
    | cons e es ih =>
      intro r
      have hput : (r.mapValues g).insert e.1 (g e.2) = (r.insert e.1 e.2).mapValues g := by
        show (⟨put _ _ _, _⟩ : Record β) = ⟨_, _⟩
        congr 1
        exact put_map g e.1 e.2 r.entries
      show ((r.mapValues g).insert e.1 (g e.2)).insertAll _ = ((r.insert e.1 e.2).insertAll es).mapValues g
      rw [hput]
      exact ih _
  exact key es .empty

theorem mem_of_mem_put {e : String × α} (h : e ∈ put k v es) : e = (k, v) ∨ e ∈ es := by
  induction es with
  | nil => exact .inl (mem_singleton.mp h)
  | cons f es ih =>
    obtain ⟨j, w⟩ := f
    rw [put] at h
    split_ifs at h with hj
    · rw [hj] at h
      exact (mem_cons.mp h).imp_right (mem_cons_of_mem _)
    · rcases mem_cons.mp h with h | h
      · exact .inr (h ▸ mem_cons_self)
      · exact (ih h).imp_right (mem_cons_of_mem _)

theorem mem_of_mem_ofList {e : String × α} (h : e ∈ (ofList es).entries) : e ∈ es := by
  have key : ∀ (es : List (String × α)) (r : Record α),
      e ∈ (r.insertAll es).entries → e ∈ r.entries ∨ e ∈ es := by
    intro es
    induction es with
    | nil => exact fun r he => .inl he
    | cons f es ih =>
      intro r he
      rcases ih _ he with he | he
      · rcases mem_of_mem_put he with rfl | he
        · exact .inr mem_cons_self
        · exact .inl he
      · exact .inr (mem_cons_of_mem _ he)
  exact (key es empty h).resolve_left not_mem_nil

/-- The record without its entry under `k`. -/
def erase (r : Record α) (k : String) : Record α := r.filter (fun k' => decide (k' ≠ k))

theorem lookup_filter (p : String → Bool) (k : String) (es : List (String × α)) :
    lookup k (es.filter fun e => p e.1) = if p k then lookup k es else none := by
  induction es with
  | nil => simp [lookup]
  | cons e es ih =>
    obtain ⟨j, w⟩ := e
    by_cases hj : j = k
    · subst hj
      by_cases hp : p j = true
      · simp [List.filter, lookup, hp]
      · simp [List.filter, hp, ih]
    · by_cases hp : p j = true
      · simp [List.filter, lookup, hp, hj, ih]
      · simp [List.filter, lookup, hp, hj, ih]

/-- Filtering on keys hides exactly the rejected keys. -/
theorem get?_filter (p : String → Bool) (k : String) :
    (r.filter p).get? k = if p k then r.get? k else none :=
  lookup_filter p k r.entries

theorem get?_erase (k k' : String) : (r.erase k).get? k' = if k' = k then none else r.get? k' := by
  show (r.filter _).get? k' = _
  rw [get?_filter]
  by_cases hk : k' = k <;> simp [hk]

theorem get?_foldl_erase (ks : List String) (r : Record α) (k : String) :
    (ks.foldl erase r).get? k = if k ∈ ks then none else r.get? k := by
  induction ks generalizing r with
  | nil => exact (if_neg not_mem_nil).symm
  | cons k' ks ih =>
    rw [foldl_cons, ih, get?_erase]
    by_cases hk : k ∈ ks
    · rw [if_pos hk, if_pos (mem_cons_of_mem k' hk)]
    · simp only [hk, if_false, mem_cons, or_false]

theorem get?_filterEntries (p : String × α → Bool) (k : String) :
    (r.filterEntries p).get? k = (r.get? k).filter fun v => p (k, v) := by
  refine Option.ext fun v => ?_
  rw [← mem_entries_iff]
  show (k, v) ∈ r.entries.filter p ↔ _
  rw [mem_filter, mem_entries_iff, Option.filter_eq_some_iff]

theorem eq_of_entries {r s : Record α} (h : r.entries = s.entries) : r = s := by
  cases r
  cases s
  cases h
  rfl

theorem put_of_lookup (h : lookup k es = some v) : put k v es = es := by
  induction es with
  | nil => cases h
  | cons e es ih =>
    obtain ⟨j, w⟩ := e
    by_cases hj : j = k
    · simp only [lookup, hj, if_true, Option.some.injEq] at h
      simp [put, hj, h]
    · simp only [lookup, hj, if_false] at h
      simp [put, hj, ih h]

/-- Writing what is there changes nothing. -/
theorem insert_of_get? {r : Record α} (h : r.get? k = some v) :
    r.insert k v = r := eq_of_entries (put_of_lookup h)

theorem entries_eq_filterMap :
    r.entries = r.keys.filterMap fun k => (r.get? k).map fun v => (k, v) := by
  rw [keys, filterMap_map]
  refine Eq.trans filterMap_some.symm (filterMap_congr fun e he => ?_)
  have hget : r.get? e.1 = some e.2 := (mem_entries_iff r).mp he
  rw [Function.comp_apply, hget]
  rfl

/-- Records are equal when they have the same keys in the same order and
the same values. -/
theorem eq_of_keys {r s : Record α} (hkeys : r.keys = s.keys) (h : ∀ k, r.get? k = s.get? k) :
    r = s := by
  refine eq_of_entries ?_
  rw [entries_eq_filterMap r, entries_eq_filterMap s, hkeys]
  exact filterMap_congr fun k _ => by rw [h k]

theorem filter_put (p : String → Bool) (k : String) (v : α) (es : List (String × α)) :
    (put k v es).filter (fun e => p e.1) =
      if p k then put k v (es.filter fun e => p e.1) else es.filter fun e => p e.1 := by
  induction es with
  | nil => cases hk : p k <;> simp [put, hk]
  | cons e es ih =>
    obtain ⟨j, w⟩ := e
    by_cases hj : j = k
    · subst hj
      cases hk : p j <;> simp [put, hk]
    · cases hk : p k <;> cases hp : p j <;> simp_all [put]

/-- A filter that keeps the key commutes with writing it. -/
theorem filter_insert {p : String → Bool} (hk : p k = true) (r : Record α) (v : α) :
    (r.insert k v).filter p = (r.filter p).insert k v :=
  eq_of_entries ((filter_put p k v r.entries).trans (if_pos hk))

theorem filter_insert_drop {p : String → Bool} (hk : p k = false) (r : Record α) (v : α) :
    (r.insert k v).filter p = r.filter p :=
  eq_of_entries ((filter_put p k v r.entries).trans (by rw [hk]; rfl))

theorem filter_filter (p q : String → Bool) (r : Record α) :
    (r.filter p).filter q = r.filter fun k => p k && q k := by
  refine eq_of_entries ?_
  show (r.entries.filter _).filter _ = r.entries.filter _
  rw [List.filter_filter]
  exact filter_congr fun e _ => Bool.and_comm _ _

theorem filter_congr {p q : String → Bool} {r : Record α}
    (h : ∀ k, (r.get? k).isSome → p k = q k) : r.filter p = r.filter q := by
  refine eq_of_entries (List.filter_congr fun e he => h e.1 ?_)
  rw [(r.mem_entries_iff).mp he]
  rfl

/-- Erasing one key and writing another commute. -/
theorem erase_insert_ne {k k' : String} (h : k ≠ k') (r : Record α) (v : α) :
    (r.insert k v).erase k' = (r.erase k').insert k v :=
  filter_insert (decide_eq_true h) r v

theorem erase_insert_self (k : String) (r : Record α) (v : α) :
    (r.insert k v).erase k = r.erase k :=
  filter_insert_drop (by simp) r v

theorem erase_comm (k k' : String) (r : Record α) :
    (r.erase k).erase k' = (r.erase k').erase k := by
  show (r.filter _).filter _ = (r.filter _).filter _
  rw [filter_filter, filter_filter]
  exact filter_congr fun j _ => Bool.and_comm _ _

/-- Erasing a missing key changes nothing. -/
theorem erase_of_get?_none {r : Record α} (h : r.get? k = none) : r.erase k = r := by
  refine eq_of_entries (filter_eq_self.mpr fun e he => decide_eq_true fun hk => ?_)
  have hsome : r.get? e.1 = some e.2 := (r.mem_entries_iff).mp he
  rw [hk, h] at hsome
  cases hsome

theorem get?_mapValues (f : α → β) (k : String) : (r.mapValues f).get? k = (r.get? k).map f := by
  show lookup k (r.entries.map fun e => (e.1, f e.2)) = (lookup k r.entries).map f
  induction r.entries with
  | nil => rfl
  | cons e es ih =>
    obtain ⟨j, w⟩ := e
    by_cases hj : j = k
    · simp [lookup, hj]
    · simp [lookup, hj, ih]

/-! ### Records that read the same -/

/-- Every key reads the same in both records; the order of the entries
is free. -/
def Same (a b : Record α) : Prop := ∀ k, a.get? k = b.get? k

instance [DecidableEq α] : DecidableEq (Record α) := fun r s =>
  decidable_of_iff (r.entries = s.entries) ⟨eq_of_entries, fun h => congrArg entries h⟩

/-- It is enough to look at the entries of both records. -/
theorem same_iff {a b : Record α} :
    a.Same b ↔ (∀ e ∈ a.entries, b.get? e.1 = some e.2) ∧ ∀ e ∈ b.entries, a.get? e.1 = some e.2 := by
  constructor
  · intro h
    refine ⟨fun e he => ?_, fun e he => ?_⟩
    · rw [← h e.1]
      exact (a.mem_entries_iff).mp he
    · rw [h e.1]
      exact (b.mem_entries_iff).mp he
  · rintro ⟨hab, hba⟩ k
    cases ha : a.get? k with
    | some v => exact (hab (k, v) ((a.mem_entries_iff).mpr ha)).symm
    | none =>
      cases hb : b.get? k with
      | none => rfl
      | some v =>
        have hav := hba (k, v) ((b.mem_entries_iff).mpr hb)
        rw [ha] at hav
        cases hav

instance [DecidableEq α] (a b : Record α) : Decidable (a.Same b) := decidable_of_iff _ same_iff.symm

theorem Same.refl (a : Record α) : Same a a := fun _ => rfl

theorem Same.symm {a b : Record α} (h : Same a b) : Same b a := fun k => (h k).symm

theorem Same.trans {a b c : Record α} (hab : Same a b) (hbc : Same b c) : Same a c :=
  fun k => (hab k).trans (hbc k)

end Record

end Vertz.Lib
