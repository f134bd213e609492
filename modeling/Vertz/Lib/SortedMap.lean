import Mathlib.Order.Lattice
import Mathlib.Data.List.Induction
import Mathlib.Data.List.Nodup
import Mathlib.Data.List.Perm.Basic

/-!
# `Vertz.Lib.SortedMap`: maps in the order of their keys

A sorted map is a list of entries whose keys ascend, so two maps with the
same lookups are equal. The theorems:

* `get?_insert`: insertion changes what is under one key.
* `ext_get?`: a map is determined by its lookups.
* `mem_entries_iff`: an entry is in the map when it is what its key finds.
* `ofEntries_entries`: inserting the entries of a map one by one gives
  the map again.
* `get?_ofEntries`: of the entries under one key the last one stays.
* `get?_groupBy`: grouping lists the members of each group in order.
-/

namespace Vertz.Lib

open List

structure SortedMap (κ α : Type) [LT κ] where
  entries : List (κ × α)
  sorted : entries.Pairwise (fun a b => a.1 < b.1)

namespace SortedMap

variable {κ α β : Type} [LinearOrder κ]

instance [DecidableEq α] : DecidableEq (SortedMap κ α) := fun a b =>
  decidable_of_iff (a.entries = b.entries) (by cases a; cases b; simp)

def lookup (k : κ) : List (κ × α) → Option α
  | [] => none
  | (k', v) :: es => if k' = k then some v else lookup k es

/-- Put an entry in its place. -/
def put (k : κ) (v : α) : List (κ × α) → List (κ × α)
  | [] => [(k, v)]
  | (k', v') :: es =>
    if k < k' then (k, v) :: (k', v') :: es
    else if k' = k then (k, v) :: es
    else (k', v') :: put k v es

variable {es : List (κ × α)}

theorem mem_put {k : κ} {v : α} {e : κ × α} (h : e ∈ put k v es) : e = (k, v) ∨ e ∈ es := by
  induction es with
  | nil => exact .inl (mem_singleton.mp h)
  | cons f es ih =>
    obtain ⟨k', v'⟩ := f
    rw [put] at h
    split_ifs at h with hlt heq
    · exact mem_cons.mp h
    · exact (mem_cons.mp h).imp_right (mem_cons_of_mem _)
    · rcases mem_cons.mp h with h | h
      · exact .inr (h ▸ mem_cons_self)
      · exact (ih h).imp_right (mem_cons_of_mem _)

theorem put_sorted {k : κ} {v : α} (h : es.Pairwise (fun a b => a.1 < b.1)) :
    (put k v es).Pairwise (fun a b => a.1 < b.1) := by
  induction es with
  | nil => exact pairwise_singleton _ _
  | cons f es ih =>
    obtain ⟨k', v'⟩ := f
    rw [pairwise_cons] at h
    rw [put]
    split_ifs with hlt heq
    · rw [pairwise_cons, pairwise_cons]
      refine ⟨fun e he => ?_, h⟩
      rcases mem_cons.mp he with he | he
      · rw [he]
        exact hlt
      · exact lt_trans hlt (h.1 e he)
    · subst heq
      rw [pairwise_cons]
      exact h
    · rw [pairwise_cons]
      refine ⟨fun e he => ?_, ih h.2⟩
      rcases mem_put he with he | he
      · rw [he]
        exact lt_of_le_of_ne (not_lt.mp hlt) heq
      · exact h.1 e he

theorem lookup_put (k k' : κ) (v : α) (es : List (κ × α)) :
    lookup k' (put k v es) = if k = k' then some v else lookup k' es := by
  induction es with
  | nil => rfl
  | cons f es ih =>
    obtain ⟨j, w⟩ := f
    rw [put]
    by_cases hlt : k < j
    · rw [if_pos hlt]
      rfl
    · rw [if_neg hlt]
      by_cases heq : j = k
      · subst heq
        by_cases hk : j = k' <;> simp [lookup, hk]
      · rw [if_neg heq]
        by_cases hj : j = k'
        · subst hj
          have hne : ¬ k = j := fun h => heq h.symm
          simp [lookup, hne]
        · simp [lookup, hj, ih]

def empty : SortedMap κ α := ⟨[], List.Pairwise.nil⟩

def get? (m : SortedMap κ α) (k : κ) : Option α := lookup k m.entries

def keys (m : SortedMap κ α) : List κ := m.entries.map Prod.fst

def isEmpty (m : SortedMap κ α) : Bool := m.entries.isEmpty

def insert (m : SortedMap κ α) (k : κ) (v : α) : SortedMap κ α :=
  ⟨put k v m.entries, put_sorted m.sorted⟩

def erase (m : SortedMap κ α) (k : κ) : SortedMap κ α :=
  ⟨m.entries.filter fun e => !decide (e.1 = k), m.sorted.filter _⟩

def insertAll (m : SortedMap κ α) (es : List (κ × α)) : SortedMap κ α :=
  es.foldl (fun m e => m.insert e.1 e.2) m

def ofEntries (es : List (κ × α)) : SortedMap κ α := empty.insertAll es

def mapValues (m : SortedMap κ α) (f : α → β) : SortedMap κ β where
  entries := m.entries.map (fun e => (e.1, f e.2))
  sorted := by
    rw [pairwise_map]
    exact m.sorted

@[simp] theorem get?_empty (k : κ) : (empty : SortedMap κ α).get? k = none := rfl

variable (m : SortedMap κ α)

theorem get?_insert (k k' : κ) (v : α) :
    (m.insert k v).get? k' = if k = k' then some v else m.get? k' :=
  lookup_put k k' v m.entries

theorem get?_erase (k k' : κ) : (m.erase k).get? k' = if k = k' then none else m.get? k' := by
  have hlist : ∀ es : List (κ × α), lookup k' (es.filter fun e => !decide (e.1 = k)) =
      if k = k' then none else lookup k' es := by
    intro es
    induction es with
    | nil => exact (ite_self _).symm
    | cons e es ih =>
      obtain ⟨j, v⟩ := e
      by_cases hj : j = k
      · subst hj
        have hdrop : ((j, v) :: es).filter (fun e => !decide (e.1 = j)) =
            es.filter fun e => !decide (e.1 = j) := by simp
        rw [hdrop, ih]
        by_cases hk : j = k' <;> simp [lookup, hk]
      · by_cases hk : j = k'
        · subst hk
          simp [lookup, hj, Ne.symm hj]
        · simp [lookup, hj, hk, ih]
  exact hlist m.entries

theorem keys_nodup : m.keys.Nodup := by
  rw [keys, nodup_iff_pairwise_ne, pairwise_map]
  exact m.sorted.imp (fun h => ne_of_lt h)

theorem mem_iff_lookup {k : κ} {v : α} (h : (es.map Prod.fst).Nodup) :
    (k, v) ∈ es ↔ lookup k es = some v := by
  induction es with
  | nil => simp [lookup]
  | cons e es ih =>
    obtain ⟨j, w⟩ := e
    rw [map_cons, nodup_cons] at h
    by_cases hj : j = k
    · subst hj
      have hout : (j, v) ∉ es := fun hmem => h.1 (mem_map.mpr ⟨(j, v), hmem, rfl⟩)
      simp [lookup, hout, eq_comm]
    · have hne : ¬ k = j := fun h => hj h.symm
      simp [lookup, hj, hne, ih h.2]

theorem mem_entries_iff {k : κ} {v : α} :
    (k, v) ∈ m.entries ↔ m.get? k = some v := mem_iff_lookup m.keys_nodup

theorem eq_of_entries {a b : SortedMap κ α} (h : a.entries = b.entries) : a = b := by
  cases a
  cases b
  cases h
  rfl

/-- A map is determined by its lookups. -/
theorem ext_get? {a b : SortedMap κ α} (h : ∀ k, a.get? k = b.get? k) : a = b := by
  have hmem : ∀ e, e ∈ a.entries ↔ e ∈ b.entries := by
    intro ⟨k, v⟩
    rw [mem_entries_iff, mem_entries_iff, h k]
  have hperm : a.entries.Perm b.entries :=
    (perm_ext_iff_of_nodup (List.Nodup.of_map _ a.keys_nodup)
      (List.Nodup.of_map _ b.keys_nodup)).mpr hmem
  have heq : a.entries = b.entries := by
    refine hperm.eq_of_pairwise ?_ a.sorted b.sorted
    intro x y _ _ hxy hyx
    exact absurd hyx (lt_asymm hxy)
  exact eq_of_entries heq

theorem put_last {k : κ} {v : α} (h : ∀ e ∈ es, e.1 < k) : put k v es = es ++ [(k, v)] := by
  induction es with
  | nil => rfl
  | cons f es ih =>
    have hf := h f mem_cons_self
    rw [put, if_neg (lt_asymm hf), if_neg (ne_of_lt hf),
      ih (fun e he => h e (mem_cons_of_mem _ he))]
    rfl

/-- Inserting ascending entries behind the last one appends them. -/
theorem put_present {k : κ} {v v' : α} {pre post : List (κ × α)} (h : ∀ e ∈ pre, e.1 < k) :
    put k v (pre ++ (k, v') :: post) = pre ++ (k, v) :: post := by
  induction pre with
  | nil => simp [put]
  | cons e pre ih =>
    have he := h e mem_cons_self
    rw [cons_append, put, if_neg (not_lt_of_gt he), if_neg (ne_of_lt he),
      ih fun e he => h e (mem_cons_of_mem _ he)]
    rfl

theorem entries_insertAll {m : SortedMap κ α}
    (h : (m.entries ++ es).Pairwise (fun a b => a.1 < b.1)) :
    (m.insertAll es).entries = m.entries ++ es := by
  induction es generalizing m with
  | nil => exact (append_nil _).symm
  | cons e es ih =>
    have hlast : (m.insert e.1 e.2).entries = m.entries ++ [e] :=
      put_last (fun f hf => (pairwise_append.mp h).2.2 f hf e mem_cons_self)
    show ((m.insert e.1 e.2).insertAll es).entries = _
    rw [ih (by rw [hlast, append_assoc]; exact h), hlast, append_assoc]
    rfl

theorem ofEntries_entries : ofEntries m.entries = m :=
  eq_of_entries (entries_insertAll (show (empty.entries ++ m.entries).Pairwise _ from m.sorted))

theorem get?_mapValues (f : α → β) (k : κ) : (m.mapValues f).get? k = (m.get? k).map f := by
  have hlist : ∀ es : List (κ × α),
      lookup k (es.map (fun e => (e.1, f e.2))) = (lookup k es).map f := by
    intro es
    induction es with
    | nil => rfl
    | cons e es ih =>
      obtain ⟨k', v⟩ := e
      by_cases hk : k' = k <;> simp [lookup, hk, ih]
  exact hlist m.entries

theorem get?_insertAll (es : List (κ × α)) (m : SortedMap κ α) (k : κ) :
    (m.insertAll es).get? k = (lookup k es.reverse).or (m.get? k) := by
  induction es using List.reverseRecOn with
  | nil => rfl
  | append_singleton es e ih =>
    have hstep : m.insertAll (es ++ [e]) = (m.insertAll es).insert e.1 e.2 := by
      simp [insertAll]
    rw [hstep, get?_insert, ih, reverse_append, reverse_singleton,
      singleton_append, lookup]
    by_cases hk : e.1 = k <;> simp [hk]

theorem lookup_eq_some_iff {k : κ} {v : α} :
    lookup k es = some v ↔ ∃ pre post, es = pre ++ (k, v) :: post ∧ ∀ e ∈ pre, e.1 ≠ k := by
  induction es with
  | nil => simp [lookup]
  | cons e es ih =>
    obtain ⟨k', w⟩ := e
    rw [lookup]
    by_cases hk : k' = k
    · subst hk
      rw [if_pos rfl]
      constructor
      · intro h
        cases h
        exact ⟨[], es, rfl, by simp⟩
      · rintro ⟨pre, post, hsplit, hpre⟩
        cases pre with
        | nil =>
          cases hsplit
          rfl
        | cons f pre =>
          cases hsplit
          exact absurd rfl (hpre (k', w) mem_cons_self)
    · rw [if_neg hk, ih]
      constructor
      · rintro ⟨pre, post, rfl, hpre⟩
        exact ⟨(k', w) :: pre, post, rfl, forall_mem_cons.mpr ⟨hk, hpre⟩⟩
      · rintro ⟨pre, post, hsplit, hpre⟩
        cases pre with
        | nil =>
          cases hsplit
          exact absurd rfl hk
        | cons f pre =>
          cases hsplit
          exact ⟨pre, post, rfl, (forall_mem_cons.mp hpre).2⟩

/-- Of the entries under one key the last one stays. -/
theorem get?_ofEntries (es : List (κ × α)) (k : κ) (v : α) :
    (ofEntries es).get? k = some v ↔
      ∃ pre post, es = pre ++ (k, v) :: post ∧ ∀ e ∈ post, e.1 ≠ k := by
  rw [ofEntries, get?_insertAll, get?_empty, Option.or_none, lookup_eq_some_iff]
  constructor
  · rintro ⟨pre, post, hsplit, hpre⟩
    refine ⟨post.reverse, pre.reverse, ?_, fun e he => hpre e (mem_reverse.mp he)⟩
    have hrev := congrArg List.reverse hsplit
    simpa using hrev
  · rintro ⟨pre, post, rfl, hpost⟩
    exact ⟨post.reverse, pre.reverse, by simp, fun e he => hpost e (mem_reverse.mp he)⟩

/-- The first value that passes a test is the one under the least key. -/
theorem find?_values (test : α → Bool) (v : α) :
    (m.entries.map Prod.snd).find? test = some v ↔ ∃ k, m.get? k = some v ∧ test v = true ∧
        ∀ k' v', m.get? k' = some v' → test v' = true → k ≤ k' := by
  have hlist : ∀ es : List (κ × α), es.Pairwise (fun a b => a.1 < b.1) →
      ((es.map Prod.snd).find? test = some v ↔ ∃ k, (k, v) ∈ es ∧ test v = true ∧
        ∀ e ∈ es, test e.2 = true → k ≤ e.1) := by
    intro es hes
    induction es with
    | nil => simp
    | cons e es ih =>
      rw [pairwise_cons] at hes
      rw [map_cons, find?_cons]
      cases htest : test e.2 with
      | true =>
        constructor
        · intro h
          cases h
          refine ⟨e.1, mem_cons_self, htest, fun f hf _ => ?_⟩
          rcases mem_cons.mp hf with rfl | hf
          · exact le_refl _
          · exact le_of_lt (hes.1 f hf)
        · rintro ⟨k, hmem, -, hleast⟩
          rcases mem_cons.mp hmem with heq | hmem
          · rw [← heq]
          · exact absurd (hes.1 _ hmem) (not_lt.mpr (hleast e mem_cons_self htest))
      | false =>
        rw [ih hes.2]
        constructor
        · rintro ⟨k, hmem, hv, hleast⟩
          refine ⟨k, mem_cons_of_mem _ hmem, hv, fun f hf hpass => ?_⟩
          rcases mem_cons.mp hf with rfl | hf
          · rw [htest] at hpass
            cases hpass
          · exact hleast f hf hpass
        · rintro ⟨k, hmem, hv, hleast⟩
          rcases mem_cons.mp hmem with heq | hmem
          · rw [← heq, hv] at htest
            cases htest
          · exact ⟨k, hmem, hv, fun f hf => hleast f (mem_cons_of_mem _ hf)⟩
  rw [hlist m.entries m.sorted]
  refine exists_congr fun k => and_congr (mem_entries_iff m) (and_congr Iff.rfl ?_)
  constructor
  · exact fun h k' v' hget => h (k', v') ((mem_entries_iff m).mpr hget)
  · exact fun h e he => h e.1 e.2 ((mem_entries_iff m).mp he)

/-! ### Groups -/

/-- The members of each group, in the order of the list. -/
def groupBy (key : α → κ) (member : α → β) (xs : List α) : SortedMap κ (List β) :=
  xs.foldl (fun m x => m.insert (key x) ((m.get? (key x)).getD [] ++ [member x])) .empty

theorem get?_groupBy (key : α → κ) (member : α → β) (xs : List α) (k : κ) :
    (groupBy key member xs).get? k =
      if (xs.filter (fun x => key x = k)) = [] then none
      else some ((xs.filter (fun x => key x = k)).map member) := by
  induction xs using List.reverseRecOn with
  | nil => rfl
  | append_singleton xs x ih =>
    have hstep : groupBy key member (xs ++ [x]) = (groupBy key member xs).insert (key x)
        (((groupBy key member xs).get? (key x)).getD [] ++ [member x]) := by
      simp [groupBy]
    rw [hstep, get?_insert, filter_append]
    by_cases hk : key x = k
    · subst hk
      rw [if_pos rfl, ih]
      by_cases hnil : xs.filter (fun y => key y = key x) = []
      · simp [hnil]
      · simp [hnil]
    · rw [if_neg hk, ih]
      simp [hk]

end SortedMap

end Vertz.Lib
