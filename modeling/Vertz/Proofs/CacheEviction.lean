import Mathlib.Algebra.Order.BigOperators.Group.List
import Vertz.Lib.Run
import Vertz.Native.Ci.Cache

/-!
# `Vertz.Proofs.CacheEviction`: what puts and gets keep of a local cache

Entries are dropped in the order of their last access; of those accessed
in one second the smaller key goes first. `evictIfNeeded_spec` says that
the shortest beginning of this order goes that makes the rest fit.

So a new entry goes itself when what was accessed in the same second
under greater keys does not fit with it, and a file goes under two keys
that share its name. `calls_kept`: runs without such puts keep
everything.
-/

namespace Vertz.Proofs

open Vertz.Native.Ci.LocalCache
open Vertz.Lib
open Vertz.Native.Ci List SortedMap

/-! ### Calls -/

inductive CacheCall where
  | put (key : String) (data : List UInt8)
  | get (key : String) (restoreKeys : List String)

/-- A cache with the time of the last call. -/
structure TimedCache where
  clock : ℕ
  cache : LocalCache (List UInt8)

def TimedCache.new : TimedCache := ⟨0, .empty⟩

def TimedCache.apply (maxSize : ℕ) (s : TimedCache) : ℕ × CacheCall → TimedCache
  | (now, .put key data) => ⟨now, s.cache.putSync maxSize now key data data.length⟩
  | (now, .get key restoreKeys) => ⟨now, (s.cache.getSync now key restoreKeys).1⟩

section

variable {δ : Type}

/-- The size of what is dropped after an entry that is accessed now. -/
def tiedAfter (cache : LocalCache δ) (now : ℕ) (key : String) : ℕ :=
  ((cache.manifest.entries.filter fun e => decide (e.2.lastAccessed = now ∧ key < e.1)).map
    fun e => e.2.size).sum

/-- No other key has the file, and what is dropped after the new entry
fits with it. -/
structure SafePut (maxSize : ℕ) (cache : LocalCache δ) (now : ℕ) (key : String) (size : ℕ) :
    Prop where
  apart : ∀ e ∈ cache.manifest.entries, entryPath e.1 = entryPath key → e.1 = key
  fits : size ≤ maxSize → size + tiedAfter cache now key ≤ maxSize

/-- Time goes on, and puts are safe. -/
def SafeCall (maxSize : ℕ) (s : TimedCache) (call : ℕ × CacheCall) : Prop :=
  s.clock ≤ call.1 ∧ match call.2 with
    | .put key data => SafePut maxSize s.cache call.1 key data.length
    | .get _ _ => True

/-- Files and manifest belong together. -/
structure FilesMatch (cache : LocalCache δ) : Prop where
  stored : ∀ e ∈ cache.manifest.entries, (cache.files.get? (entryPath e.1)).isSome
  listed : ∀ name, (cache.files.get? name).isSome →
    ∃ e ∈ cache.manifest.entries, entryPath e.1 = name

/-- The cache with the new entry, before anything is dropped. -/
def withEntry (cache : LocalCache δ) (now : ℕ) (key : String) (data : δ) (size : ℕ) :
    LocalCache δ where
  files := cache.files.insert (entryPath key) data
  manifest := cache.manifest.insert key ⟨size, now, now⟩

/-- What is asked of a put. -/
structure PutKept (maxSize : ℕ) (cache : LocalCache δ) (now : ℕ) (key : String) (data : δ)
    (size : ℕ) : Prop where
  bounded : (cache.putSync maxSize now key data size).totalSize ≤ maxSize
  readable : size ≤ maxSize → ∀ later restoreKeys,
    ((cache.putSync maxSize now key data size).getSync later key restoreKeys).2 = some (key, data)
  oldest : ∀ e ∈ (withEntry cache now key data size).manifest.entries,
    ∀ e' ∈ (withEntry cache now key data size).manifest.entries,
      e.2.lastAccessed < e'.2.lastAccessed →
      e' ∉ (cache.putSync maxSize now key data size).manifest.entries →
      e ∉ (cache.putSync maxSize now key data size).manifest.entries

def CallKept (maxSize : ℕ) (s : TimedCache) (call : ℕ × CacheCall) : Prop :=
  FilesMatch (s.apply maxSize call).cache ∧ match call.2 with
    | .put key data => PutKept maxSize s.cache call.1 key data data.length
    | .get _ _ => True

/-! ### Dropping entries -/

def dropEntries (cache : LocalCache δ) (dropped : List (String × ManifestEntry)) : LocalCache δ :=
  dropped.foldl (fun cache e => ⟨cache.files.erase (entryPath e.1), cache.manifest.erase e.1⟩) cache

variable {maxSize now : ℕ} {cache : LocalCache δ} {dropped : List (String × ManifestEntry)}

theorem entries_dropEntries : (dropEntries cache dropped).manifest.entries =
    cache.manifest.entries.filter fun e => e.1 ∉ dropped.map Prod.fst := by
  induction dropped generalizing cache with
  | nil => simp [dropEntries]
  | cons d dropped ih =>
    show (dropEntries ⟨_, cache.manifest.erase d.1⟩ dropped).manifest.entries = _
    rw [ih]
    show (cache.manifest.entries.filter _).filter _ = _
    rw [filter_filter]
    refine filter_congr fun e _ => ?_
    have hmem : e.1 ∈ (d :: dropped).map Prod.fst ↔ e.1 = d.1 ∨ e.1 ∈ dropped.map Prod.fst :=
      mem_cons
    rw [Bool.eq_iff_iff, Bool.and_eq_true, decide_eq_true_iff, Bool.not_eq_true',
      decide_eq_false_iff_not, decide_eq_true_iff, hmem, not_or, and_comm]

theorem files_dropEntries (name : String) : (dropEntries cache dropped).files.get? name =
    if name ∈ dropped.map (fun e => entryPath e.1) then none else cache.files.get? name := by
  induction dropped generalizing cache with
  | nil => rfl
  | cons d dropped ih =>
    show (dropEntries ⟨cache.files.erase (entryPath d.1), _⟩ dropped).files.get? name = _
    have hmem : name ∈ (d :: dropped).map (fun e => entryPath e.1) ↔
      name = entryPath d.1 ∨ name ∈ dropped.map fun e => entryPath e.1 := mem_cons
    rw [ih, get?_erase, if_congr hmem rfl rfl]
    by_cases hname : entryPath d.1 = name
    · simp [hname]
    · simp only [hname, Ne.symm hname, if_false, false_or]

def sizes (entries : List (String × ManifestEntry)) : ℕ := (entries.map fun e => e.2.size).sum

/-- The shortest beginning is dropped that makes the rest fit. -/
theorem evict_spec (entries : List (String × ManifestEntry)) (cache : LocalCache δ) :
    ∃ dropped kept, entries = dropped ++ kept ∧
      evict maxSize (sizes entries) entries cache = dropEntries cache dropped ∧
      (kept = [] ∨ sizes kept ≤ maxSize) ∧
      ∀ before after, dropped = before ++ after → after ≠ [] → maxSize < sizes (after ++ kept) := by
  induction entries generalizing cache with
  | nil => exact ⟨[], [], rfl, rfl, .inl rfl, by simp⟩
  | cons e entries ih =>
    obtain ⟨key, entry⟩ := e
    rw [evict]
    split_ifs with hfits
    · exact ⟨[], (key, entry) :: entries, rfl, rfl, .inr hfits, by simp⟩
    · have hrest : sizes ((key, entry) :: entries) - entry.size = sizes entries := by
        simp [sizes]
      obtain ⟨dropped, kept, rfl, heq, hkept, hshortest⟩ :=
        ih ⟨cache.files.erase (entryPath key), cache.manifest.erase key⟩
      rw [hrest, heq]
      refine ⟨(key, entry) :: dropped, kept, rfl, rfl, hkept, fun before after hsplit hne => ?_⟩
      cases before with
      | nil =>
        rw [nil_append] at hsplit
        rw [← hsplit]
        exact not_le.mp hfits
      | cons _ before =>
        exact hshortest before after (List.cons.inj hsplit).2 hne

/-- The order in which entries are dropped. -/
def evictionOrder (cache : LocalCache δ) : List (String × ManifestEntry) :=
  cache.manifest.entries.mergeSort fun a b => decide (a.2.lastAccessed ≤ b.2.lastAccessed)

theorem evictionOrder_perm (cache : LocalCache δ) :
    (evictionOrder cache).Perm cache.manifest.entries := mergeSort_perm _ _

/-- The oldest first, and the smaller of two keys when they are as old. -/
theorem evictionOrder_sorted (cache : LocalCache δ) :
    (evictionOrder cache).Pairwise fun a b => a.2.lastAccessed < b.2.lastAccessed ∨
      a.2.lastAccessed = b.2.lastAccessed ∧ a.1 < b.1 := by
  have htrans : ∀ a b c : String × ManifestEntry,
      decide (a.2.lastAccessed ≤ b.2.lastAccessed) → decide (b.2.lastAccessed ≤ c.2.lastAccessed) →
        decide (a.2.lastAccessed ≤ c.2.lastAccessed) := by simp; omega
  have htotal : ∀ a b : String × ManifestEntry, decide (a.2.lastAccessed ≤ b.2.lastAccessed) ||
      decide (b.2.lastAccessed ≤ a.2.lastAccessed) := by simp; omega
  rw [pairwise_iff_forall_sublist]
  intro a b hab
  have hle : a.2.lastAccessed ≤ b.2.lastAccessed := by
    have := (pairwise_iff_forall_sublist.mp (pairwise_mergeSort htrans htotal _)) hab
    simpa using this
  rcases Nat.lt_or_eq_of_le hle with hlt | heq
  · exact .inl hlt
  · -- sorting is stable, so those of one time stay in the order of their keys
    let tied := fun e : String × ManifestEntry => decide (e.2.lastAccessed = b.2.lastAccessed)
    have hsub : (cache.manifest.entries.filter tied).Sublist (evictionOrder cache) := by
      refine sublist_mergeSort htrans htotal ?_ filter_sublist
      refine pairwise_of_forall_mem_list fun x hx y hy => ?_
      have hx' := of_decide_eq_true (mem_filter.mp hx).2
      have hy' := of_decide_eq_true (mem_filter.mp hy).2
      simp [hx', hy']
    have hsame : cache.manifest.entries.filter tied = (evictionOrder cache).filter tied := by
      refine List.Sublist.eq_of_length ?_ ?_
      · have := hsub.filter tied
        rwa [filter_filter, funext fun e => Bool.and_self (tied e)] at this
      · exact ((evictionOrder_perm cache).filter tied).length_eq.symm
    have hpair : [a, b].Sublist (cache.manifest.entries.filter tied) := by
      rw [hsame]
      have := hab.filter tied
      rwa [filter_eq_self.mpr (by simp [tied, heq])] at this
    have hlt := pairwise_iff_forall_sublist.mp cache.manifest.sorted
      (hpair.trans filter_sublist)
    exact .inr ⟨heq, hlt⟩

theorem evictIfNeeded_spec (maxSize : ℕ) (cache : LocalCache δ) :
    ∃ dropped kept, evictionOrder cache = dropped ++ kept ∧
      cache.evictIfNeeded maxSize = dropEntries cache dropped ∧
      (kept = [] ∨ sizes kept ≤ maxSize) ∧
      ∀ before after, dropped = before ++ after → after ≠ [] → maxSize < sizes (after ++ kept) := by
  have hsizes : sizes (evictionOrder cache) = cache.totalSize :=
    ((evictionOrder_perm cache).map _).sum_eq
  rw [evictIfNeeded]
  split_ifs with hfits
  · exact ⟨[], evictionOrder cache, rfl, rfl, .inr (hsizes ▸ hfits), by simp⟩
  · rw [← hsizes]
    exact evict_spec (evictionOrder cache) cache

variable {kept : List (String × ManifestEntry)}

theorem keys_nodup_order (horder : evictionOrder cache = dropped ++ kept) :
    ((dropped ++ kept).map Prod.fst).Nodup := by
  rw [← horder, ((evictionOrder_perm cache).map Prod.fst).nodup_iff]
  exact cache.manifest.keys_nodup

theorem kept_perm (horder : evictionOrder cache = dropped ++ kept) :
    (dropEntries cache dropped).manifest.entries.Perm kept := by
  have hnodup := keys_nodup_order horder
  rw [map_append] at hnodup
  let stays := fun e : String × ManifestEntry => decide (e.1 ∉ dropped.map Prod.fst)
  have hdropped : dropped.filter stays = [] := by
    refine filter_eq_nil_iff.mpr fun e he hstays => ?_
    exact of_decide_eq_true hstays (mem_map_of_mem he)
  have hkept : kept.filter stays = kept := by
    refine filter_eq_self.mpr fun e he => decide_eq_true ?_
    exact fun hmem => disjoint_of_nodup_append hnodup hmem (mem_map_of_mem he)
  rw [entries_dropEntries]
  have hperm := ((evictionOrder_perm cache).filter stays).symm
  rwa [horder, filter_append, hdropped, hkept] at hperm

/-! ### The invariant -/

/-- Files and manifest belong together, no two keys have one file, and
nothing was accessed later than now. -/
structure Sound (now : ℕ) (cache : LocalCache δ) : Prop where
  matched : FilesMatch cache
  distinct : ∀ e ∈ cache.manifest.entries, ∀ e' ∈ cache.manifest.entries,
    entryPath e.1 = entryPath e'.1 → e.1 = e'.1
  past : ∀ e ∈ cache.manifest.entries, e.2.lastAccessed ≤ now

theorem mem_insert {m : SortedMap String ManifestEntry} {key : String} {entry : ManifestEntry}
    {e : String × ManifestEntry} :
    e ∈ (m.insert key entry).entries ↔ e = (key, entry) ∨ e ∈ m.entries ∧ e.1 ≠ key := by
  obtain ⟨k, v⟩ := e
  rw [mem_entries_iff, mem_entries_iff, get?_insert, Prod.mk.injEq]
  by_cases hkey : key = k
  · simp [hkey, eq_comm]
  · simp [hkey, Ne.symm hkey]

variable {later : ℕ} {key : String} {data : δ} {size : ℕ}

theorem Sound.mono (h : Sound now cache) (hle : now ≤ later) : Sound later cache :=
  ⟨h.matched, h.distinct, fun e he => (h.past e he).trans hle⟩

theorem Sound.withEntry (h : Sound now cache)
    (hapart : ∀ e ∈ cache.manifest.entries, entryPath e.1 = entryPath key → e.1 = key) :
    Sound now (withEntry cache now key data size) where
  matched :=
    { stored := by
        intro e he
        show ((cache.files.insert _ data).get? _).isSome
        rw [get?_insert]
        split_ifs with hpath
        · rfl
        · rcases mem_insert.mp he with rfl | ⟨he, _⟩
          · exact absurd rfl hpath
          · exact h.matched.stored e he
      listed := by
        intro name hname
        change ((cache.files.insert _ data).get? _).isSome at hname
        rw [get?_insert] at hname
        split_ifs at hname with hpath
        · exact ⟨_, mem_insert.mpr (.inl rfl), hpath⟩
        · obtain ⟨e, he, heq⟩ := h.matched.listed name hname
          exact ⟨e, mem_insert.mpr (.inr ⟨he, fun hkey => hpath (hkey ▸ heq)⟩), heq⟩ }
  distinct := by
    intro e he e' he' hpath
    rcases mem_insert.mp he with rfl | ⟨he, _⟩ <;> rcases mem_insert.mp he' with rfl | ⟨he', _⟩
    · rfl
    · exact (hapart e' he' hpath.symm).symm
    · exact hapart e he hpath
    · exact h.distinct e he e' he' hpath
  past := by
    intro e he
    rcases mem_insert.mp he with rfl | ⟨he, _⟩
    · exact le_refl now
    · exact h.past e he

theorem Sound.dropEntries (h : Sound now cache) (hsub : dropped ⊆ cache.manifest.entries) :
    Sound now (dropEntries cache dropped) := by
  have hmem : ∀ e, e ∈ (Proofs.dropEntries cache dropped).manifest.entries ↔
      e ∈ cache.manifest.entries ∧ e.1 ∉ dropped.map Prod.fst := by
    intro e
    rw [entries_dropEntries, mem_filter, decide_eq_true_iff]
  refine ⟨⟨fun e he => ?_, fun name hname => ?_⟩, fun e he e' he' => ?_, fun e he => ?_⟩
  · rw [files_dropEntries, if_neg]
    · exact h.matched.stored e ((hmem e).mp he).1
    · intro hpath
      obtain ⟨d, hd, hpath⟩ := mem_map.mp hpath
      have := h.distinct d (hsub hd) e ((hmem e).mp he).1 hpath
      exact ((hmem e).mp he).2 (this ▸ mem_map_of_mem hd)
  · rw [files_dropEntries] at hname
    split_ifs at hname with hpath
    · cases hname
    · obtain ⟨e, he, rfl⟩ := h.matched.listed name hname
      refine ⟨e, (hmem e).mpr ⟨he, fun hdropped => hpath ?_⟩, rfl⟩
      obtain ⟨d, hd, hkey⟩ := mem_map.mp hdropped
      exact mem_map.mpr ⟨d, hd, congrArg entryPath hkey⟩
  · exact h.distinct e ((hmem e).mp he).1 e' ((hmem e').mp he').1
  · exact h.past e ((hmem e).mp he).1

theorem Sound.touch (h : Sound now cache) (key : String) : Sound now (cache.touch now key) := by
  rw [LocalCache.touch]
  cases hget : cache.manifest.get? key with
  | none => exact h
  | some entry =>
    have hkey := (cache.manifest.mem_entries_iff).mpr hget
    have hold : ∀ e ∈ (cache.manifest.insert key { entry with lastAccessed := now }).entries,
        ∃ e' ∈ cache.manifest.entries, e'.1 = e.1 := by
      intro e he
      rcases mem_insert.mp he with rfl | ⟨he, _⟩
      · exact ⟨_, hkey, rfl⟩
      · exact ⟨e, he, rfl⟩
    refine ⟨⟨fun e he => ?_, fun name hname => ?_⟩, fun e he e' he' hpath => ?_, fun e he => ?_⟩
    · obtain ⟨e', he', heq⟩ := hold e he
      exact heq ▸ h.matched.stored e' he'
    · obtain ⟨e, he, heq⟩ := h.matched.listed name hname
      by_cases hsame : e.1 = key
      · exact ⟨_, mem_insert.mpr (.inl rfl), hsame ▸ heq⟩
      · exact ⟨e, mem_insert.mpr (.inr ⟨he, hsame⟩), heq⟩
    · obtain ⟨d, hd, heq⟩ := hold e he
      obtain ⟨d', hd', heq'⟩ := hold e' he'
      rw [← heq, ← heq'] at hpath ⊢
      exact h.distinct d hd d' hd' hpath
    · rcases mem_insert.mp he with rfl | ⟨he, _⟩
      · exact le_refl now
      · exact h.past e he

/-- A lookup notes at most one access. -/
theorem Sound.getSync (h : Sound now cache) (restoreKeys : List String) :
    Sound now (cache.getSync now key restoreKeys).1 := by
  have hrestore : Sound now (cache.restore now restoreKeys).1 := by
    induction restoreKeys with
    | nil => exact h
    | cons pre restoreKeys ih =>
      rw [restore]
      split
      · exact ih
      · split
        · exact ih
        · exact h.touch _
  rw [LocalCache.getSync]
  split
  · exact h.touch _
  · exact hrestore

/-! ### One put -/

theorem dropped_subset (horder : evictionOrder cache = dropped ++ kept) :
    dropped ⊆ cache.manifest.entries := fun _ hd =>
  (evictionOrder_perm cache).mem_iff.mp (horder ▸ mem_append_left kept hd)

theorem Sound.putSync (h : Sound now cache)
    (hapart : ∀ e ∈ cache.manifest.entries, entryPath e.1 = entryPath key → e.1 = key) :
    Sound now (cache.putSync maxSize now key data size) := by
  obtain ⟨dropped, kept, horder, heq, _⟩ :=
    evictIfNeeded_spec maxSize (Proofs.withEntry cache now key data size)
  show Sound now ((Proofs.withEntry cache now key data size).evictIfNeeded maxSize)
  rw [heq]
  exact (h.withEntry hapart).dropEntries (dropped_subset horder)

/-- What comes after the new entry was accessed now too, so that it all
fits when the put is safe. -/
theorem sizes_after_le (h : Sound now cache) (hput : SafePut maxSize cache now key size)
    (hsize : size ≤ maxSize) {before after : List (String × ManifestEntry)}
    (horder : evictionOrder (withEntry cache now key data size) =
      before ++ (key, ⟨size, now, now⟩) :: after) :
    sizes ((key, ⟨size, now, now⟩) :: after) ≤ maxSize := by
  have hperm := evictionOrder_perm (withEntry cache now key data size)
  have hsorted := evictionOrder_sorted (withEntry cache now key data size)
  have hnodup : (evictionOrder (withEntry cache now key data size)).Nodup :=
    hperm.nodup_iff.mpr ((withEntry cache now key data size).manifest.sorted.imp
      fun hlt heq => ne_of_lt hlt (congrArg Prod.fst heq))
  rw [horder] at hperm hsorted hnodup
  have htied : after ⊆ cache.manifest.entries.filter fun e =>
      decide (e.2.lastAccessed = now ∧ key < e.1) := by
    intro e he
    have hlater := (pairwise_cons.mp (pairwise_append.mp hsorted).2.1).1 e he
    have hmem := hperm.mem_iff.mp (mem_append_right before (mem_cons_of_mem _ he))
    rcases mem_insert.mp hmem with rfl | ⟨hmem, _⟩
    · exact absurd he (nodup_cons.mp (nodup_append.mp hnodup).2.1).1
    · have hpast := h.past e hmem
      refine mem_filter.mpr ⟨hmem, decide_eq_true ?_⟩
      rcases hlater with hlt | ⟨heq, hkey⟩
      · exact absurd hlt (not_lt.mpr hpast)
      · exact ⟨heq.symm, hkey⟩
  obtain ⟨tied, hperm', hsub⟩ :=
    subperm_of_subset (nodup_cons.mp (nodup_append.mp hnodup).2.1).2 htied
  have hafter : sizes after ≤ tiedAfter cache now key := by
    rw [sizes, ← (hperm'.map _).sum_eq]
    exact (hsub.map _).sum_le_sum fun _ _ => Nat.zero_le _
  have hfits := hput.fits hsize
  show size + sizes after ≤ maxSize
  omega

theorem putKept (h : Sound now cache) (hput : SafePut maxSize cache now key size) :
    PutKept maxSize cache now key data size := by
  obtain ⟨dropped, kept, horder, heq, hkept, hshortest⟩ :=
    evictIfNeeded_spec maxSize (withEntry cache now key data size)
  have heq : cache.putSync maxSize now key data size = _ := heq
  have hmem : ∀ e, e ∈ (cache.putSync maxSize now key data size).manifest.entries ↔ e ∈ kept := by
    intro e
    rw [heq]
    exact (kept_perm horder).mem_iff
  have hall : ∀ e, e ∈ dropped ++ kept ↔
      e ∈ (withEntry cache now key data size).manifest.entries := by
    intro e
    rw [← horder]
    exact (evictionOrder_perm _).mem_iff
  constructor
  case bounded =>
    have hsum : (cache.putSync maxSize now key data size).totalSize = sizes kept := by
      rw [heq]
      exact ((kept_perm horder).map _).sum_eq
    rw [hsum]
    rcases hkept with rfl | hkept
    · exact Nat.zero_le _
    · exact hkept
  case readable =>
    intro hsize later restoreKeys
    have hnew : ∀ d ∈ dropped, d.1 ≠ key := by
      intro d hd hkey
      obtain ⟨before, after, rfl⟩ := append_of_mem hd
      have hd : d = (key, ⟨size, now, now⟩) :=
        (mem_insert.mp (dropped_subset horder hd)).elim id fun hold => absurd hkey hold.2
      subst hd
      have htoo := hshortest before _ rfl (cons_ne_nil _ _)
      rw [append_assoc, cons_append] at horder
      exact absurd (sizes_after_le h hput hsize horder) (not_le.mpr htoo)
    have hfile : (cache.putSync maxSize now key data size).files.get? (entryPath key) =
        some data := by
      rw [heq, files_dropEntries, if_neg]
      · exact (get?_insert _ _ _ _).trans (if_pos rfl)
      · intro hpath
        obtain ⟨d, hd, hpath⟩ := mem_map.mp hpath
        rcases mem_insert.mp (dropped_subset horder hd) with rfl | ⟨hold, _⟩
        · exact hnew _ hd rfl
        · exact hnew d hd (hput.apart d hold hpath)
    rw [getSync, hfile]
  case oldest =>
    intro e he e' he' hlt hdropped hstays
    rw [hmem] at hdropped hstays
    have he' := (mem_append.mp ((hall e').mpr he')).resolve_right hdropped
    have hsorted := evictionOrder_sorted (withEntry cache now key data size)
    rw [horder] at hsorted
    have := (pairwise_append.mp hsorted).2.2 e' he' e hstays
    omega

end

/-! ### Runs -/

/-- One safe call. -/
theorem sound_apply {maxSize : ℕ} {s : TimedCache} {call : ℕ × CacheCall}
    (hs : Sound s.clock s.cache) (hcall : SafeCall maxSize s call) :
    Sound (s.apply maxSize call).clock (s.apply maxSize call).cache := by
  obtain ⟨now, call⟩ := call
  have hnow := hs.mono hcall.1
  cases call with
  | put key data => exact hnow.putSync hcall.2.apart
  | get key restoreKeys => exact hnow.getSync restoreKeys

theorem sound_new : Sound TimedCache.new.clock TimedCache.new.cache where
  matched := ⟨nofun, nofun⟩
  distinct := nofun
  past := nofun

theorem calls_kept (maxSize : ℕ) (calls : List (ℕ × CacheCall))
    (h : Along (TimedCache.apply maxSize) (SafeCall maxSize) .new calls) :
    Along (TimedCache.apply maxSize) (CallKept maxSize) .new calls := by
  refine Along.imp (fun _ _ => sound_apply) (fun s call hs hcall => ?_) sound_new h
  refine ⟨(sound_apply hs hcall).matched, ?_⟩
  obtain ⟨now, call⟩ := call
  cases call with
  | put key data => exact putKept (hs.mono hcall.1) hcall.2
  | get => trivial

/-- The second put leaves both entries in the cache. -/
theorem roomy_calls_kept :
    Along (TimedCache.apply 10) (SafeCall 10) .new
      [(4, .put "b" [1, 2]), (5, .put "a" [3]), (5, .get "b" [])] ∧
    Along (TimedCache.apply 10) (CallKept 10) .new
      [(4, .put "b" [1, 2]), (5, .put "a" [3]), (5, .get "b" [])] := by
  have hsafe : Along (TimedCache.apply 10) (SafeCall 10) .new
      [(4, .put "b" [1, 2]), (5, .put "a" [3]), (5, .get "b" [])] :=
    ⟨⟨by decide, ⟨nofun, by decide +kernel⟩⟩,
      ⟨by decide +kernel, ⟨by decide +kernel, by decide +kernel⟩⟩,
      ⟨by decide +kernel, trivial⟩, trivial⟩
  exact ⟨hsafe, calls_kept 10 _ hsafe⟩

/-- Of two entries that are put in the same second and do not fit together,
the one with the smaller key goes, also when it is the new one. -/
theorem put_drops_itself : ¬ ∀ (maxSize : ℕ) (calls : List (ℕ × CacheCall)),
    calls.Pairwise (fun a b => a.1 ≤ b.1) →
      Along (TimedCache.apply maxSize) (CallKept maxSize) .new calls := by
  intro hclaim
  have hrun := hclaim 10 [(5, .put "b" (.replicate 6 0)), (5, .put "a" (.replicate 6 0))]
    (by decide)
  have hread := hrun.2.1.2.readable (by decide) 5 []
  rw [putSync, evictIfNeeded, if_neg (by decide +kernel),
    mergeSort_of_pairwise (by decide +kernel)] at hread
  exact absurd hread (by decide +kernel)

end Vertz.Proofs
