import Mathlib.Data.List.Count
import Vertz.Spec.QueryRuns

/-!
# `Vertz.Proofs.EvictionRuns`: held keys are evicted last

One turn of the loop forgets one stored key and touches no other
(`evictStep_forgets`), so the loop ends within its bound and a path of
turns is described by the keys that it leaves (`Path`). Over a run, the
count of a key that is not lost is the number of its holders (`Counted`).
-/

namespace Vertz.Proofs.EvictionRuns

open Vertz.Lib Vertz.Ui.Query Vertz.Ui.Query.MemoryCache Vertz.Spec.EvictionRuns List Record

variable {V : Type}

/-! ## One turn of the loop -/

section Turn

variable {c c' : MemoryCache V} {key : String}

/-- Orphans are stored and have no count. -/
def Tidy (c : MemoryCache V) : Prop :=
  ∀ k, (c._orphans.get? k).isSome → c.stored k = true ∧ c._refs.get? k = none

/-- `c'` is `c` without the stored key `k`. -/
structure Forgets (k : String) (c c' : MemoryCache V) : Prop where
  wasStored : c.stored k = true
  stored : ∀ k', c'.stored k' = (decide (k' ≠ k) && c.stored k')
  refs : ∀ k', c'._refs.get? k' = if k' = k then none else c._refs.get? k'
  orphans : ∀ k', c'._orphans.get? k' = if k' = k then none else c._orphans.get? k'
  size : c'.size < c.size
  limit : c'._maxSize = c._maxSize

theorem stored_erase (r : Record V) (k k' : String) :
    ((r.erase k).get? k').isSome = (decide (k' ≠ k) && (r.get? k').isSome) := by
  rw [get?_erase]
  by_cases h : k' = k <;> simp [h]

theorem length_erase_lt (r : Record V) {k : String} (h : (r.get? k).isSome) :
    (r.erase k).entries.length < r.entries.length := by
  obtain ⟨v, hv⟩ := Option.isSome_iff_exists.mp h
  have hmem : (k, v) ∈ r.entries := (r.mem_entries_iff).mpr hv
  show (r.entries.filter _).length < _
  rw [length_filter_lt_length_iff_exists]
  exact ⟨(k, v), hmem, by simp⟩

theorem delete_forgets {k : String} (h : c.stored k = true) : Forgets k c (c.delete k) where
  wasStored := h
  stored := fun k' => stored_erase c._store k k'
  refs := fun _ => get?_erase _ _ _
  orphans := fun _ => get?_erase _ _ _
  size := length_erase_lt c._store h
  limit := rfl

theorem get?_of_head {α : Type} {r : Record α} {k : String} (h : r.keys.head? = some k) :
    (r.get? k).isSome :=
  (r.mem_keys_iff).mp (mem_of_head? h)

theorem get?_none_of_head {α : Type} {r : Record α} (h : r.keys.head? = none) (k : String) :
    r.get? k = none := by
  have hkeys : r.keys = [] := head?_eq_none_iff.mp h
  rw [← Option.not_isSome_iff_eq_none, ← mem_keys_iff, hkeys]
  exact not_mem_nil

/-- The three kinds of turns. -/
theorem evictStep_cases (h : c.evictStep key = some c') :
    (∃ k, (c._orphans.get? k).isSome ∧ c' = c.delete k) ∨
    ((∀ k, c._orphans.get? k = none) ∧ ∃ k, c.stored k = true ∧ k ≠ key ∧
      c._refs.get? k = none ∧
      c' = { c with _store := c._store.erase k, _versions := c._versions.erase k }) ∨
    (∃ k, c.stored k = true ∧ c' = c.delete k ∧
      ∀ k', c.stored k' = true → k' ≠ key → (c._refs.get? k').isSome) := by
  rw [evictStep] at h
  split at h
  · split at h
    · rename_i orphan horphan
      exact .inl ⟨orphan, get?_of_head horphan, (Option.some.inj h).symm⟩
    · rename_i hnone
      split at h
      · rename_i k hfind
        have hk := find?_some hfind
        simp only [decide_eq_true_eq, Option.isNone_iff_eq_none] at hk
        exact .inr (.inl ⟨get?_none_of_head hnone, k,
          (c._store.mem_keys_iff).mp (mem_of_find?_eq_some hfind), hk.1, hk.2,
          (Option.some.inj h).symm⟩)
      · rename_i hfind
        obtain ⟨k, hk, hdelete⟩ := Option.map_eq_some_iff.mp h
        refine .inr (.inr ⟨k, get?_of_head hk, hdelete.symm, fun k' hstored hne => ?_⟩)
        have hcount := find?_eq_none.mp hfind k' ((c._store.mem_keys_iff).mpr hstored)
        simpa [hne, Option.isSome_iff_ne_none] using hcount
  · cases h

theorem evictStep_forgets (htidy : Tidy c) (h : c.evictStep key = some c') :
    ∃ k, Forgets k c c' := by
  rcases evictStep_cases h with ⟨k, hk, rfl⟩ | ⟨hnone, k, hk, _, hrefs, rfl⟩ | ⟨k, hk, rfl, _⟩
  · exact ⟨k, delete_forgets (htidy k hk).1⟩
  · refine ⟨k, hk, fun k' => stored_erase c._store k k', fun k' => ?_, fun k' => ?_,
      length_erase_lt c._store hk, rfl⟩
    · by_cases heq : k' = k
      · rw [if_pos heq, heq, hrefs]
      · rw [if_neg heq]
    · rw [hnone k', ite_self]
  · exact ⟨k, delete_forgets hk⟩

theorem Forgets.tidy {k : String} (h : Forgets k c c') (htidy : Tidy c) : Tidy c' := by
  intro k' hk'
  rw [h.orphans] at hk'
  by_cases heq : k' = k
  · rw [if_pos heq] at hk'
    cases hk'
  · rw [if_neg heq] at hk'
    rw [h.stored, h.refs, if_neg heq]
    simpa [heq] using htidy k' hk'

theorem overCapacity_iff {limit : ℚ≥0} (hlimit : c._maxSize = some limit) :
    c.overCapacity = true ↔ limit < (c.size : ℚ≥0) := by
  rw [overCapacity, hlimit]
  exact decide_eq_true_iff

/-- The loop ends because the cache is small enough, not because it is
empty. -/
theorem not_over_of_evictStep_none (h : c.evictStep key = none) : c.overCapacity = false := by
  by_contra hover
  rw [Bool.not_eq_false] at hover
  rw [evictStep, if_pos hover] at h
  split at h
  · cases h
  · split at h
    · cases h
    · have hempty : c._store.entries = [] := by
        rw [Option.map_eq_none_iff, head?_eq_none_iff] at h
        exact map_eq_nil_iff.mp h
      cases hlimit : c._maxSize with
      | none =>
        rw [overCapacity, hlimit] at hover
        cases hover
      | some limit =>
        rw [overCapacity_iff hlimit, MemoryCache.size, hempty] at hover
        have hnonneg : (0 : ℚ≥0) ≤ limit := limit.2
        exact absurd hover (by simpa using hnonneg)

end Turn

/-! ## The loop -/

section Loop

variable {c c' : MemoryCache V} {key : String}

/-- The turns of the loop that writes `key`. -/
abbrev Turns (key : String) : MemoryCache V → MemoryCache V → Prop :=
  Relation.ReflTransGen fun c c' => c.evictStep key = some c'

/-- What a path of turns leaves. -/
structure Path (c c' : MemoryCache V) : Prop where
  tidy : Tidy c'
  stored : ∀ k, c'.stored k = true → c.stored k = true
  refs : ∀ k, c'._refs.get? k =
    if c.stored k = true ∧ c'.stored k = false then none else c._refs.get? k
  limit : c'._maxSize = c._maxSize

theorem path_of_turns (htidy : Tidy c) (h : Turns key c c') : Path c c' := by
  induction h with
  | refl => exact ⟨htidy, fun _ h => h, fun k => by simp, rfl⟩
  | tail _ hstep ih =>
    rename_i b d _
    obtain ⟨k, hk⟩ := evictStep_forgets ih.tidy hstep
    refine ⟨hk.tidy ih.tidy, fun k' hstored => ?_, fun k' => ?_, hk.limit.trans ih.limit⟩
    · rw [hk.stored, Bool.and_eq_true] at hstored
      exact ih.stored k' hstored.2
    · rw [hk.refs, hk.stored, ih.refs]
      by_cases heq : k' = k
      · subst heq
        simp [ih.stored k' hk.wasStored]
      · simp [heq]

theorem evict_turns : ∀ (bound : ℕ) {c : MemoryCache V}, Tidy c → c.size ≤ bound →
    Turns key c (evict key bound c) ∧ (evict key bound c).evictStep key = none := by
  intro bound
  induction bound with
  | zero =>
    intro c htidy hsize
    refine ⟨.refl, ?_⟩
    -- no key is left to forget
    cases hstep : c.evictStep key with
    | none => exact hstep
    | some c' =>
      obtain ⟨k, hk⟩ := evictStep_forgets htidy hstep
      have := hk.size
      omega
  | succ bound ih =>
    intro c htidy hsize
    rw [evict]
    cases hstep : c.evictStep key with
    | none => exact ⟨.refl, hstep⟩
    | some c' =>
      obtain ⟨k, hk⟩ := evictStep_forgets htidy hstep
      have hsmaller := hk.size
      obtain ⟨hturns, hend⟩ := ih (hk.tidy htidy) (by omega)
      exact ⟨.head hstep hturns, hend⟩

theorem stored_write (value : V) (version : Option ℕ) (k : String) :
    (c.write key value version).stored k = (decide (k = key) || c.stored k) := by
  show (((c._store.erase key).insert key value).get? k).isSome = _
  rw [get?_insert, get?_erase]
  by_cases h : key = k
  · simp [h]
  · have hne : ¬ k = key := fun heq => h heq.symm
    simp [h, hne, MemoryCache.stored]

theorem Tidy.write (h : Tidy c) (value : V) (version : Option ℕ) :
    Tidy (c.write key value version) := by
  intro k hk
  obtain ⟨hstored, hrefs⟩ := h k hk
  rw [stored_write, hstored]
  exact ⟨by simp, hrefs⟩

theorem set_turns (h : Tidy c) (value : V) (version : Option ℕ) :
    Turns key (c.write key value version) (c.set key value version) ∧
      (c.set key value version).evictStep key = none :=
  evict_turns _ (h.write value version) (Nat.le_add_right _ _)

end Loop

/-! ## Counts and holders -/

section Counts

variable {s : HeldCache V} {op : CacheOp V}

/-- A key that is not lost is counted once for each holder; a lost key is
not stored and counted at most as often. -/
structure Counted (s : HeldCache V) : Prop where
  tidy : Tidy s.cache
  atMost : ∀ k, (s.cache._refs.get? k).getD 0 ≤ s.held k
  exact : ∀ k, k ∉ s.lost → (s.cache._refs.get? k).getD 0 = s.held k
  positive : ∀ k n, s.cache._refs.get? k = some n → 0 < n
  gone : ∀ k, k ∈ s.lost → s.cache.stored k = false

theorem counted_start (maxSize : Option MaxSize) :
    Counted (HeldCache.start maxSize : HeldCache V) where
  tidy := fun _ hk => Bool.noConfusion hk
  atMost := fun _ => Nat.zero_le _
  exact := fun _ _ => rfl
  positive := fun _ _ h => nomatch h
  gone := fun _ h => nomatch h

/-- A stored key that may be set has a count exactly when it is held. -/
theorem Counted.live_iff (h : Counted s) {k : String} (hk : k ∉ s.lost) :
    s.live k = true ↔ (s.cache._refs.get? k).isSome := by
  have hexact := h.exact k hk
  rw [HeldCache.live, decide_eq_true_iff, ← hexact]
  cases hget : s.cache._refs.get? k with
  | none => simp
  | some n => simpa using h.positive k n hget

theorem not_lost_of_stored (h : Counted s) {key : String} (hkey : key ∉ s.lost) {value : V}
    {version : Option ℕ} {k : String}
    (hstored : (s.cache.write key value version).stored k = true) : k ∉ s.lost := by
  rw [stored_write, Bool.or_eq_true, decide_eq_true_iff] at hstored
  rcases hstored with rfl | hstored
  · exact hkey
  · intro hlost
    rw [h.gone k hlost] at hstored
    cases hstored

/-- Orphans and keys without a count go before counted ones. -/
theorem evicts_unheld_first (h : Counted s) {key : String} (hkey : key ∉ s.lost) (value : V)
    (version : Option ℕ) : EvictsUnheldFirst s key (s.cache.write key value version) := by
  intro c c' hturns hstep k hk hgone hlive k' hk' hne hnekey
  have hpath := path_of_turns (h.tidy.write value version) hturns
  have hlive_iff : ∀ j, c.stored j = true → (s.live j = true ↔ (c._refs.get? j).isSome) := by
    intro j hj
    rw [h.live_iff (not_lost_of_stored h hkey (hpath.stored j hj)), hpath.refs j,
      if_neg (by simp [hj])]
    exact Iff.rfl
  -- the key that is forgotten is `k`
  have hforgotten : ∀ j, Forgets j c c' → j = k := by
    intro j hj
    by_contra hne'
    rw [hj.stored, hk] at hgone
    simp [Ne.symm hne'] at hgone
  rcases evictStep_cases hstep with ⟨j, hj, rfl⟩ | ⟨_, j, hj, _, hrefs, rfl⟩ | ⟨j, hj, rfl, hall⟩
  · obtain ⟨hstored, hrefs⟩ := hpath.tidy j hj
    rw [← hforgotten j (delete_forgets hstored), hlive_iff j hstored, hrefs] at hlive
    cases hlive
  · have hjk : j = k := by
      by_contra hne'
      have hstill : ((c._store.erase j).get? k).isSome = true := by
        rw [stored_erase]
        simpa [Ne.symm hne', MemoryCache.stored] using hk
      exact absurd (hstill.symm.trans hgone) (by simp)
    rw [← hjk, hlive_iff j hj, hrefs] at hlive
    cases hlive
  · exact (hlive_iff k' hk').mpr (hall k' hk' hnekey)

/-! ### The operations keep the counts -/

theorem counted_get (h : Counted s) (key : String) : Counted (s.apply (.get key)) := by
  have hstored : ∀ k, (s.cache.get key).1.stored k = s.cache.stored k := by
    intro k
    rw [MemoryCache.get]
    cases hget : s.cache._store.get? key with
    | none => rfl
    | some value =>
      show (((s.cache._store.erase key).insert key value).get? k).isSome = _
      rw [get?_insert, get?_erase, MemoryCache.stored]
      by_cases heq : key = k
      · simp [← heq, hget]
      · have hne : ¬ k = key := fun h => heq h.symm
        simp [heq, hne]
  have hrest : (s.cache.get key).1._refs = s.cache._refs ∧
      (s.cache.get key).1._orphans = s.cache._orphans := by
    rw [MemoryCache.get]
    cases s.cache._store.get? key <;> exact ⟨rfl, rfl⟩
  refine ⟨fun k hk => ?_, fun k => ?_, fun k hk => ?_, fun k n hn => ?_, fun k hk => ?_⟩
  · show (s.cache.get key).1.stored k = true ∧ (s.cache.get key).1._refs.get? k = none
    rw [hstored, hrest.1]
    have hk : ((s.cache.get key).1._orphans.get? k).isSome := hk
    rw [hrest.2] at hk
    exact h.tidy k hk
  · show ((s.cache.get key).1._refs.get? k).getD 0 ≤ _
    rw [hrest.1]
    exact h.atMost k
  · show ((s.cache.get key).1._refs.get? k).getD 0 = _
    rw [hrest.1]
    exact h.exact k hk
  · have hn : (s.cache.get key).1._refs.get? k = some n := hn
    rw [hrest.1] at hn
    exact h.positive k n hn
  · exact (hstored k).trans (h.gone k hk)

theorem counted_set (h : Counted s) {key : String} (hkey : key ∉ s.lost) (value : V)
    (version : Option ℕ) : Counted (s.apply (.set key value version)) := by
  obtain ⟨hturns, _⟩ := @set_turns _ _ key h.tidy value version
  have hpath := path_of_turns (h.tidy.write value version) hturns
  have hrefs : ∀ k, (s.cache.set key value version)._refs.get? k =
      if k ∈ evicted s.cache key value version then none else s.cache._refs.get? k := by
    intro k
    rw [hpath.refs]
    have hiff : k ∈ evicted s.cache key value version ↔
        (s.cache.write key value version).stored k = true ∧
          (s.cache.set key value version).stored k = false := by
      rw [evicted, mem_filter, mem_keys_iff, Bool.not_eq_true']
      exact Iff.rfl
    simp only [hiff]
    rfl
  refine ⟨hpath.tidy, fun k => ?_, fun k hk => ?_, fun k n hn => ?_, fun k hk => ?_⟩
  · show ((s.cache.set key value version)._refs.get? k).getD 0 ≤ _
    rw [hrefs]
    split
    · exact Nat.zero_le _
    · exact h.atMost k
  · have hk : k ∉ s.lost ++ (evicted s.cache key value version).filter s.live := hk
    rw [mem_append, not_or, mem_filter, not_and] at hk
    show ((s.cache.set key value version)._refs.get? k).getD 0 = s.held k
    rw [hrefs]
    split
    · rename_i hevicted
      have hdead := hk.2 hevicted
      rw [HeldCache.live, decide_eq_true_iff] at hdead
      exact (Nat.eq_zero_of_not_pos hdead).symm
    · exact h.exact k hk.1
  · have hn : (s.cache.set key value version)._refs.get? k = some n := hn
    rw [hrefs] at hn
    split at hn
    · cases hn
    · exact h.positive k n hn
  · have hk : k ∈ s.lost ++ (evicted s.cache key value version).filter s.live := hk
    show (s.cache.set key value version).stored k = false
    rcases mem_append.mp hk with hlost | hevicted
    · by_contra hstored
      rw [Bool.not_eq_false] at hstored
      exact not_lost_of_stored h hkey (hpath.stored k hstored) hlost
    · have hgone := (mem_filter.mp (mem_filter.mp hevicted).1).2
      simpa using hgone

theorem counted_delete (h : Counted s) (key : String) : Counted (s.apply (.delete key)) := by
  have hrefs : ∀ k, (s.cache.delete key)._refs.get? k =
      if k = key then none else s.cache._refs.get? k := fun _ => get?_erase _ _ _
  have hstored : ∀ k, (s.cache.delete key).stored k = (decide (k ≠ key) && s.cache.stored k) :=
    fun k => stored_erase _ _ _
  refine ⟨fun k hk => ?_, fun k => ?_, fun k hk => ?_, fun k n hn => ?_, fun k hk => ?_⟩
  · have hk : ((s.cache._orphans.erase key).get? k).isSome := hk
    rw [stored_erase, Bool.and_eq_true, decide_eq_true_iff] at hk
    show (s.cache.delete key).stored k = true ∧ (s.cache.delete key)._refs.get? k = none
    rw [hstored, hrefs, if_neg hk.1]
    simpa [hk.1] using h.tidy k hk.2
  · show ((s.cache.delete key)._refs.get? k).getD 0 ≤ s.held k
    rw [hrefs]
    split
    · exact Nat.zero_le _
    · exact h.atMost k
  · have hk : k ∉ s.lost ++ [key].filter s.live := hk
    rw [mem_append, not_or, mem_filter, mem_singleton, not_and] at hk
    show ((s.cache.delete key)._refs.get? k).getD 0 = s.held k
    rw [hrefs]
    split
    · rename_i heq
      have hdead := hk.2 heq
      rw [HeldCache.live, decide_eq_true_iff] at hdead
      exact (Nat.eq_zero_of_not_pos hdead).symm
    · exact h.exact k hk.1
  · have hn : (s.cache.delete key)._refs.get? k = some n := hn
    rw [hrefs] at hn
    split at hn
    · cases hn
    · exact h.positive k n hn
  · have hk : k ∈ s.lost ++ [key].filter s.live := hk
    show (s.cache.delete key).stored k = false
    rw [hstored]
    rcases mem_append.mp hk with hlost | hkey
    · simp [h.gone k hlost]
    · simp [mem_singleton.mp (mem_filter.mp hkey).1]

theorem counted_retain (h : Counted s) (holder : ℕ) (key : String) :
    Counted (s.apply (.retain holder key)) := by
  have hrefs : ∀ k, (s.cache.retain key)._refs.get? k =
      if key = k then some ((s.cache._refs.get? key).getD 0 + 1) else s.cache._refs.get? k :=
    fun _ => get?_insert _ _ _ _
  have hheld : ∀ k, (s.apply (.retain holder key)).held k =
      s.held k + if key = k then 1 else 0 := by
    intro k
    show ((holder, key) :: s.holders).countP _ = _
    simp only [countP_cons, decide_eq_true_eq, HeldCache.held]
  refine ⟨fun k hk => ?_, fun k => ?_, fun k hk => ?_, fun k n hn => ?_, fun k hk => h.gone k hk⟩
  · have hk : ((s.cache._orphans.erase key).get? k).isSome := hk
    rw [stored_erase, Bool.and_eq_true, decide_eq_true_iff] at hk
    show s.cache.stored k = true ∧ (s.cache.retain key)._refs.get? k = none
    rw [hrefs, if_neg (Ne.symm hk.1)]
    exact h.tidy k hk.2
  · show ((s.cache.retain key)._refs.get? k).getD 0 ≤ _
    rw [hrefs, hheld]
    have hle := h.atMost k
    split
    · rename_i heq
      rw [heq]
      exact Nat.succ_le_succ hle
    · exact hle
  · show ((s.cache.retain key)._refs.get? k).getD 0 = _
    rw [hrefs, hheld]
    have hexact := h.exact k hk
    split
    · rename_i heq
      rw [heq]
      exact congrArg (· + 1) hexact
    · exact hexact
  · have hn : (s.cache.retain key)._refs.get? k = some n := hn
    rw [hrefs] at hn
    split at hn
    · cases hn
      exact Nat.succ_pos _
    · exact h.positive k n hn

/-- Releasing takes one from the count, if there is one. -/
theorem refs_release (c : MemoryCache V) (key k : String) (hpositive : ∀ n,
      c._refs.get? key = some n → 0 < n) :
    ((c.release key)._refs.get? k).getD 0 =
      if k = key then (c._refs.get? key).getD 0 - 1 else (c._refs.get? k).getD 0 := by
  rw [MemoryCache.release]
  cases hget : c._refs.get? key with
  | none =>
    by_cases heq : k = key
    · simp [heq, hget]
    · simp [heq]
  | some current =>
    have := hpositive current hget
    by_cases hle : current ≤ 1
    · simp only [if_pos hle, get?_erase]
      by_cases heq : k = key
      · simp [heq]
        omega
      · simp [heq]
    · simp only [if_neg hle, get?_insert]
      by_cases heq : k = key
      · simp [heq]
      · simp [heq, Ne.symm heq]

theorem positive_release (c : MemoryCache V) (key : String) (h : ∀ k n,
      c._refs.get? k = some n → 0 < n) {k : String} {n : ℕ}
    (hn : (c.release key)._refs.get? k = some n) : 0 < n := by
  rw [MemoryCache.release] at hn
  split at hn
  · exact h k n hn
  · split at hn
    · rw [get?_erase] at hn
      split at hn
      · cases hn
      · exact h k n hn
    · rw [get?_insert] at hn
      split at hn
      · cases hn
        omega
      · exact h k n hn

theorem tidy_release {c : MemoryCache V} (h : Tidy c) (key : String) : Tidy (c.release key) := by
  intro k hk
  rw [MemoryCache.release] at hk ⊢
  cases hget : c._refs.get? key with
  | none =>
    rw [hget] at hk
    exact h k hk
  | some current =>
    rw [hget] at hk
    by_cases hle : current ≤ 1
    · simp only [if_pos hle] at hk ⊢
      show c.stored k = true ∧ (c._refs.erase key).get? k = none
      rw [get?_erase]
      by_cases hkey : k = key
      · refine ⟨?_, if_pos hkey⟩
        by_contra hnot
        rw [Bool.not_eq_true] at hnot
        rw [if_neg (by rw [← hkey, hnot]; exact Bool.false_ne_true)] at hk
        exact absurd (h k hk).1 (by simp [hnot])
      · rw [if_neg hkey]
        refine h k ?_
        split at hk
        · rwa [get?_insert, if_neg (Ne.symm hkey)] at hk
        · exact hk
    · simp only [if_neg hle] at hk ⊢
      obtain ⟨hstored, hrefs⟩ := h k hk
      refine ⟨hstored, ?_⟩
      show (c._refs.insert key (current - 1)).get? k = none
      rw [get?_insert, if_neg, hrefs]
      intro heq
      rw [heq, hrefs] at hget
      cases hget

theorem stored_release (c : MemoryCache V) (key k : String) :
    (c.release key).stored k = c.stored k := by
  rw [MemoryCache.release]
  split
  · rfl
  · split <;> rfl

theorem counted_release (h : Counted s) {holder : ℕ} {key : String}
    (hholds : (holder, key) ∈ s.holders) : Counted (s.apply (.release holder key)) := by
  have hheld : ∀ k, (s.apply (.release holder key)).held k =
      if k = key then s.held key - 1 else s.held k := by
    intro k
    show (s.holders.erase (holder, key)).countP _ = _
    rw [countP_erase]
    by_cases heq : k = key
    · simp [heq, hholds, HeldCache.held]
    · simp [heq, Ne.symm heq, HeldCache.held]
  have hpositive := h.positive key
  refine ⟨tidy_release h.tidy key, fun k => ?_, fun k hk => ?_,
    fun k n hn => positive_release s.cache key h.positive hn, fun k hk => ?_⟩
  · show ((s.cache.release key)._refs.get? k).getD 0 ≤ _
    rw [refs_release _ _ _ hpositive, hheld]
    split
    · exact Nat.sub_le_sub_right (h.atMost key) 1
    · exact h.atMost k
  · show ((s.cache.release key)._refs.get? k).getD 0 = _
    rw [refs_release _ _ _ hpositive, hheld]
    by_cases hlost : k ∈ s.lost
    · -- its last holder has released it
      have hnone : (s.apply (.release holder key)).held k = 0 := by
        have hk : k ∉ s.lost.filter fun k => (s.holders.erase (holder, key)).any
            fun h => h.2 = k := hk
        rw [mem_filter, not_and] at hk
        refine countP_eq_zero.mpr fun e he heq => hk hlost ?_
        exact any_eq_true.mpr ⟨e, he, heq⟩
      rw [hheld] at hnone
      have hle := h.atMost
      split
      · rename_i heq
        rw [if_pos heq] at hnone
        have := hle key
        omega
      · rename_i heq
        rw [if_neg heq] at hnone
        have := hle k
        omega
    · split
      · rename_i heq
        rw [← heq, h.exact k hlost]
      · exact h.exact k hlost
  · show (s.cache.release key).stored k = false
    rw [stored_release]
    exact h.gone k (mem_filter.mp hk).1

theorem counted_apply (h : Counted s) (hstep : Honest s op ∧ Careful s op) :
    Counted (s.apply op) := by
  cases op with
  | get key => exact counted_get h key
  | set key value version => exact counted_set h hstep.2 value version
  | delete key => exact counted_delete h key
  | retain holder key => exact counted_retain h holder key
  | release holder key => exact counted_release h hstep.1

end Counts

/-! ## Runs -/

theorem limit_apply {s : HeldCache V} (h : Counted s) (op : CacheOp V) :
    (s.apply op).cache._maxSize = s.cache._maxSize := by
  cases op with
  | get key =>
    show (s.cache.get key).1._maxSize = _
    rw [MemoryCache.get]
    split <;> rfl
  | set key value version =>
    exact (path_of_turns (h.tidy.write value version) (set_turns h.tidy value version).1).limit
  | delete key => rfl
  | retain holder key => rfl
  | release holder key =>
    show (s.cache.release key)._maxSize = _
    rw [MemoryCache.release]
    split
    · rfl
    · split <;> rfl

theorem keeps_of_counted {s : HeldCache V} (h : Counted s) {op : CacheOp V}
    (hstep : Honest s op ∧ Careful s op) : Keeps s op where
  limit := limit_apply h op
  bounded := by
    rintro key value version rfl limit hlimit
    have hend := not_over_of_evictStep_none (@set_turns _ _ key h.tidy value version).2
    have hsame : (s.cache.set key value version)._maxSize = some limit :=
      (limit_apply h (.set key value version)).trans hlimit
    rw [← Bool.not_eq_true, overCapacity_iff hsame, not_lt] at hend
    exact hend
  orphans := fun key hkey => ((counted_apply h hstep).tidy key hkey).1
  evicts := by
    rintro key value version rfl
    exact evicts_unheld_first h hstep.2 value version

/-- In every run in which holders release what they retained and no key is
set that was lost while it is still held, the cache stays within its
bound, its orphans are stored, and held keys are evicted last. -/
theorem careful_run_keeps (maxSize : Option MaxSize) (ops : List (CacheOp V))
    (h : Along HeldCache.apply (fun s op => Honest s op ∧ Careful s op) (HeldCache.start maxSize)
      ops) :
    Along HeldCache.apply Keeps (HeldCache.start maxSize) ops :=
  Along.imp (fun _ _ hs hstep => counted_apply hs hstep)
    (fun _ _ hs hstep => keeps_of_counted hs hstep) (counted_start maxSize) h

/-- Room for two: a held key, a key that is not held and a new one. -/
def quiet : List (CacheOp String) :=
  [.retain 1 "a", .set "a" "x" none, .set "b" "y" none, .set "c" "z" none]

theorem quiet_keeps : Along HeldCache.apply Keeps (HeldCache.start (some (.finite 2))) quiet := by
  refine careful_run_keeps _ quiet ?_
  refine ⟨⟨trivial, trivial⟩, ⟨trivial, ?_⟩, ⟨trivial, ?_⟩, ⟨trivial, ?_⟩, trivial⟩
  · show "a" ∉ _
    decide
  · show "b" ∉ _
    decide
  · show "c" ∉ _
    decide

/-- A key is deleted while it is held, as a refetch of another query does,
and set again. -/
def refetched : List (CacheOp String) :=
  [.retain 1 "a", .delete "a", .set "a" "x" none, .set "b" "y" none, .set "c" "z" none]

/-- Setting `c` evicts `a`, which is held, although `b` is not. -/
theorem held_key_evicted :
    ¬ ∀ (maxSize : Option MaxSize) (ops : List (CacheOp String)),
      Along HeldCache.apply Honest (HeldCache.start maxSize) ops →
        Along HeldCache.apply Keeps (HeldCache.start maxSize) ops := by
  intro h
  have hrun := h (some (.finite 2)) refetched
    ⟨trivial, trivial, trivial, trivial, trivial, trivial⟩
  have hkeeps := hrun.2.2.2.2.1
  have hlive := hkeeps.evicts "c" "z" none rfl _ _ .refl rfl "a" (by decide) (by decide)
    (by decide) "b" (by decide) (by decide) (by decide)
  revert hlive
  decide

end Vertz.Proofs.EvictionRuns
