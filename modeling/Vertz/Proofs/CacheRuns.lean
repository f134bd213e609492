import Vertz.Spec.TaskGraph

/-!
# `Vertz.Proofs.CacheRuns`: when lookups never cross
-/

namespace Vertz.Proofs

open Vertz.Native.Ci.LocalCache
open Vertz.Lib
open Vertz.Native.Ci
open Vertz.Spec Vertz.Spec.CacheRun

/-! ### Keys -/

theorem key_toList (owner : CacheOwner) (hash : InputHash) :
    (owner.key hash).toList = owner.stem ++ '-' :: hash.text.toList := by
  unfold CacheOwner.key cacheKey CacheOwner.stem
  cases owner.package with
  | none => simp [String.toList_append]
  | some pkg => simp [String.toList_append]

theorem restoreKeys_eq (owner : CacheOwner) :
    owner.restoreKeys = [String.ofList (owner.stem ++ ['-'])] := by
  have hlist : ∀ s : String, s.toList = owner.stem ++ ['-'] →
      s = String.ofList (owner.stem ++ ['-']) := by
    intro s hs
    rw [← hs, String.ofList_toList]
  unfold CacheOwner.restoreKeys restoreKeys
  cases hpkg : owner.package with
  | none =>
    refine congrArg (fun s => [s]) (hlist _ ?_)
    simp [CacheOwner.stem, hpkg, String.toList_append]
  | some pkg =>
    refine congrArg (fun s => [s]) (hlist _ ?_)
    simp [CacheOwner.stem, hpkg, String.toList_append]

theorem safeKey_append (a b : List Char) : safeKey (a ++ b) = safeKey a ++ safeKey b :=
  List.flatMap_append

/-- A text without slashes keeps its characters. -/
theorem safeKey_eq {s : List Char} (h : '/' ∉ s) : safeKey s = s := by
  induction s with
  | nil => rfl
  | cons c s ih =>
    rw [List.mem_cons, not_or] at h
    have hc : ¬ c = '/' := fun heq => h.1 heq.symm
    show (if c = '/' then ['_', '_'] else [c]) ++ safeKey s = c :: s
    rw [if_neg hc, ih h.2, List.singleton_append]

theorem hash_not_mem (hash : InputHash) {c : Char} (hc : c ∉ "0123456789abcdef".toList) :
    c ∉ hash.text.toList :=
  fun hmem => hc (hash.hex c hmem)

theorem hash_slash (hash : InputHash) : '/' ∉ hash.text.toList := hash_not_mem hash (by simp)

theorem hash_dash (hash : InputHash) : '-' ∉ hash.text.toList := hash_not_mem hash (by simp)

theorem entryPath_toList (owner : CacheOwner) (hash : InputHash) :
    (entryPath (owner.key hash)).toList =
      safeKey owner.stem ++ ('-' :: hash.text.toList) ++ ".tar.zst".toList := by
  have hdash : '/' ∉ '-' :: hash.text.toList := by
    rw [List.mem_cons, not_or]
    exact ⟨by decide, hash_slash hash⟩
  unfold entryPath
  rw [String.toList_ofList, key_toList, safeKey_append, safeKey_eq hdash]

theorem entryPath_inj {a b : CacheOwner} {hash hash' : InputHash}
    (h : entryPath (a.key hash) = entryPath (b.key hash')) : safeKey a.stem = safeKey b.stem := by
  have hlist := congrArg String.toList h
  rw [entryPath_toList, entryPath_toList] at hlist
  have hkeys := List.append_cancel_right hlist
  -- both hashes have 16 digits
  refine (List.append_inj' hkeys ?_).1
  rw [List.length_cons, List.length_cons, hash.length, hash'.length]

theorem entryPath_congr {a b : CacheOwner} (h : safeKey a.stem = safeKey b.stem)
    (hash : InputHash) : entryPath (a.key hash) = entryPath (b.key hash) := by
  have hlist : (entryPath (a.key hash)).toList = (entryPath (b.key hash)).toList := by
    rw [entryPath_toList, entryPath_toList, h]
  rw [← String.ofList_toList (s := entryPath (a.key hash)), hlist, String.ofList_toList]

/-- A restore key finds a key when it is a prefix of the part before the
hash, for the hash has no dash. -/
theorem restores_iff (a b : CacheOwner) (hash : InputHash) :
    startsWith (b.key hash) (String.ofList (a.stem ++ ['-'])) = true ↔
      (a.stem ++ ['-']) <+: (b.stem ++ ['-']) := by
  unfold startsWith
  rw [String.toList_ofList, key_toList, List.isPrefixOf_iff_prefix]
  have hkey : b.stem ++ '-' :: hash.text.toList = (b.stem ++ ['-']) ++ hash.text.toList := by
    rw [List.append_assoc, List.singleton_append]
  rw [hkey]
  constructor
  · rintro ⟨rest, heq⟩
    rcases List.append_eq_append_iff.mp heq with ⟨more, hmore, -⟩ | ⟨more, hmore, hhash⟩
    · exact ⟨more, hmore.symm⟩
    · cases more using List.reverseRecOn with
      | nil =>
        rw [List.append_nil] at hmore
        exact hmore ▸ List.prefix_rfl
      | append_singleton more c =>
        -- the last dash of the restore key would be in the hash
        rw [← List.append_assoc] at hmore
        have hc := (List.append_inj' hmore rfl).2
        have hmem : '-' ∈ hash.text.toList := by
          rw [hhash, ← hc]
          simp
        exact absurd hmem (hash_dash hash)
  · exact fun h => h.trans (List.prefix_append _ _)

/-! ### What is in the cache -/

/-- Every file was stored under a key of its owner, and every key of the
manifest is one of an owner in use. -/
structure CacheInv (used : CacheOwner → Prop) (cache : LocalCache StoredEntry) : Prop where
  files : ∀ name entry, cache.files.get? name = some entry →
    used entry.owner ∧ ∃ hash, name = entryPath (entry.owner.key hash)
  manifest : ∀ key, (cache.manifest.get? key).isSome = true →
    ∃ owner hash, used owner ∧ key = owner.key hash

section

variable {used : CacheOwner → Prop} {cache : LocalCache StoredEntry}

theorem CacheInv.empty : CacheInv used empty where
  files := fun _ _ h => by cases h
  manifest := fun _ h => by cases h

theorem CacheInv.erase (h : CacheInv used cache) (name key : String) :
    CacheInv used ⟨cache.files.erase name, cache.manifest.erase key⟩ where
  files := by
    intro name' entry hget
    rw [SortedMap.get?_erase] at hget
    split_ifs at hget
    exact h.files name' entry hget
  manifest := by
    intro key' hsome
    rw [SortedMap.get?_erase] at hsome
    split_ifs at hsome
    · cases hsome
    · exact h.manifest key' hsome

theorem CacheInv.evict (h : CacheInv used cache) (maxSize currentSize : ℕ)
    (entries : List (String × ManifestEntry)) :
    CacheInv used (evict maxSize currentSize entries cache) := by
  induction entries generalizing currentSize cache with
  | nil => exact h
  | cons e entries ih =>
    rw [evict]
    split_ifs
    · exact h
    · exact ih (h.erase _ _) _

theorem CacheInv.put (h : CacheInv used cache) (maxSize now : ℕ) {owner : CacheOwner}
    (howner : used owner) (hash : InputHash) (data : List UInt8) (size : ℕ) :
    CacheInv used (cache.putSync maxSize now (owner.key hash) ⟨owner, data⟩ size) := by
  have hput : CacheInv used
      { files := cache.files.insert (entryPath (owner.key hash)) ⟨owner, data⟩
        manifest := cache.manifest.insert (owner.key hash) ⟨size, now, now⟩ } := by
    constructor
    · intro name entry hget
      rw [SortedMap.get?_insert] at hget
      split_ifs at hget with hname
      · cases hget
        exact ⟨howner, hash, hname.symm⟩
      · exact h.files name entry hget
    · intro key hsome
      rw [SortedMap.get?_insert] at hsome
      split_ifs at hsome with hkey
      · exact ⟨owner, hash, howner, hkey.symm⟩
      · exact h.manifest key hsome
  unfold putSync evictIfNeeded
  split_ifs
  · exact hput
  · exact hput.evict _ _ _

theorem CacheInv.touch (h : CacheInv used cache) (now : ℕ) (key : String) :
    CacheInv used (cache.touch now key) := by
  unfold LocalCache.touch
  cases hget : cache.manifest.get? key with
  | none => exact h
  | some entry =>
    refine ⟨h.files, fun key' hsome => ?_⟩
    rw [SortedMap.get?_insert] at hsome
    split_ifs at hsome with hkey
    · refine h.manifest key' ?_
      rw [← hkey, hget]
      rfl
    · exact h.manifest key' hsome

theorem newerKey_mem {pre : String} {best : Option (String × ℕ)} {e : String × ManifestEntry}
    {key : String} {created : ℕ} (h : newerKey pre best e = some (key, created)) :
    best = some (key, created) ∨ e.1 = key ∧ startsWith e.1 pre = true := by
  unfold newerKey at h
  cases hpre : startsWith e.1 pre with
  | false =>
    rw [hpre] at h
    exact .inl h
  | true =>
    rw [hpre] at h
    have hself : ∀ {t : ℕ}, some (e.1, t) = some (key, created) → e.1 = key :=
      fun heq => congrArg Prod.fst (Option.some.inj heq)
    cases best with
    | none => exact .inr ⟨hself h, rfl⟩
    | some b =>
      simp only [if_true] at h
      split_ifs at h
      · exact .inr ⟨hself h, rfl⟩
      · exact .inl h

theorem bestKey_mem {pre key : String} (h : cache.bestKey pre = some key) :
    (cache.manifest.get? key).isSome = true ∧ startsWith key pre = true := by
  have hfold : ∀ (entries : List (String × ManifestEntry)) (best : Option (String × ℕ)) created,
      entries.foldl (newerKey pre) best = some (key, created) →
        best = some (key, created) ∨ ∃ e ∈ entries, e.1 = key ∧ startsWith e.1 pre = true := by
    intro entries
    induction entries with
    | nil => exact fun best created h => .inl h
    | cons e entries ih =>
      intro best created h
      rcases ih _ created h with h | ⟨f, hf, hkey⟩
      · exact (newerKey_mem h).imp_right fun hkey => ⟨e, List.mem_cons_self, hkey⟩
      · exact .inr ⟨f, List.mem_cons_of_mem _ hf, hkey⟩
  obtain ⟨⟨key', created⟩, hbest, hkey⟩ := Option.map_eq_some_iff.mp h
  cases hkey
  rcases hfold _ _ _ hbest with h | ⟨e, he, hkey, hpre⟩
  · cases h
  · have hget := (SortedMap.mem_entries_iff cache.manifest).mp he
    rw [hkey] at hget hpre
    exact ⟨by rw [hget]; rfl, hpre⟩

/-- What a lookup returns: the file of the key, or that of a key of the
manifest that a restore key finds. -/
theorem restore_spec (now : ℕ) (keys : List String) {key : String} {entry : StoredEntry}
    (h : (restore now cache keys).2 = some (key, entry)) :
    cache.files.get? (entryPath key) = some entry ∧ (cache.manifest.get? key).isSome = true ∧
      ∃ pre ∈ keys, startsWith key pre = true := by
  induction keys with
  | nil => cases h
  | cons pre keys ih =>
    have hlater : (restore now cache keys).2 = some (key, entry) →
        cache.files.get? (entryPath key) = some entry ∧
          (cache.manifest.get? key).isSome = true ∧
            ∃ p ∈ pre :: keys, startsWith key p = true := by
      intro h
      obtain ⟨hfile, hmanifest, p, hp, hstarts⟩ := ih h
      exact ⟨hfile, hmanifest, p, List.mem_cons_of_mem _ hp, hstarts⟩
    rw [restore] at h
    cases hbest : cache.bestKey pre with
    | none =>
      rw [hbest] at h
      exact hlater h
    | some matchedKey =>
      rw [hbest] at h
      cases hfile : cache.files.get? (entryPath matchedKey) with
      | none =>
        simp only [hfile] at h
        exact hlater h
      | some data =>
        simp only [hfile, Option.some.injEq, Prod.mk.injEq] at h
        obtain ⟨rfl, rfl⟩ := h
        obtain ⟨hmanifest, hstarts⟩ := bestKey_mem hbest
        exact ⟨hfile, hmanifest, pre, List.mem_cons_self, hstarts⟩

theorem CacheInv.restore (h : CacheInv used cache) (now : ℕ) (keys : List String) :
    CacheInv used (restore now cache keys).1 := by
  induction keys with
  | nil => exact h
  | cons pre keys ih =>
    rw [LocalCache.restore]
    split
    · exact ih
    · split
      · exact ih
      · exact h.touch _ _

theorem CacheInv.get (h : CacheInv used cache) (now : ℕ) (key : String) (keys : List String) :
    CacheInv used (cache.getSync now key keys).1 := by
  unfold getSync
  split
  · exact h.touch _ _
  · exact h.restore _ _

/-- What is in the cache was stored under a key of its owner. -/
theorem CacheInv.run (maxSize : ℕ) {ops : List CacheOp} (hops : ∀ op ∈ ops, used op.owner) :
    CacheInv used (CacheRun.run maxSize ops) := by
  have hfold : ∀ (ops : List CacheOp) (cache : LocalCache StoredEntry),
      (∀ op ∈ ops, used op.owner) → CacheInv used cache →
        CacheInv used (ops.foldl (apply maxSize) cache) := by
    intro ops
    induction ops with
    | nil => exact fun cache _ h => h
    | cons op ops ih =>
      intro cache hops h
      rw [List.forall_mem_cons] at hops
      refine ih _ hops.2 ?_
      cases op with
      | put now owner hash data => exact h.put maxSize now hops.1 hash data data.length
      | get now owner hash => exact h.get now _ _
  exact hfold ops _ hops .empty

/-! ### Lookups -/

theorem lookup_owner (hapart : OwnersApart used) (h : CacheInv used cache) {now : ℕ}
    {owner : CacheOwner} {hash : InputHash} (howner : used owner) {key : String}
    {entry : StoredEntry} (hlookup : (lookup now cache owner hash).2 = some (key, entry)) :
    entry.owner = owner := by
  have hsame : ∀ (other : CacheOwner) (hash' : InputHash), used other →
      cache.files.get? (entryPath (other.key hash')) = some entry → entry.owner = other := by
    intro other hash' hother hfile
    obtain ⟨hentry, stored, hname⟩ := h.files _ _ hfile
    exact (hapart other entry.owner hother hentry (.inl (entryPath_inj hname))).symm
  unfold lookup getSync at hlookup
  cases hfile : cache.files.get? (entryPath (owner.key hash)) with
  | some data =>
    simp only [hfile, Option.some.injEq, Prod.mk.injEq] at hlookup
    obtain ⟨-, rfl⟩ := hlookup
    exact hsame owner hash howner hfile
  | none =>
    rw [hfile] at hlookup
    obtain ⟨hfile, hmanifest, pre, hpre, hstarts⟩ := restore_spec now _ hlookup
    obtain ⟨other, hash', hother, rfl⟩ := h.manifest key hmanifest
    rw [restoreKeys_eq, List.mem_singleton] at hpre
    rw [hpre, restores_iff] at hstarts
    have heq := hapart owner other howner hother (.inr hstarts)
    rw [heq]
    exact hsame other hash' hother hfile

/-- The cache after one entry was stored. -/
theorem run_put (owner : CacheOwner) (hash : InputHash) :
    run 1 [.put 0 owner hash [0]] =
      { files := SortedMap.empty.insert (entryPath (owner.key hash)) ⟨owner, [0]⟩
        manifest := SortedMap.empty.insert (owner.key hash) ⟨1, 0, 0⟩ } := rfl

theorem bestKey_single (files : SortedMap String StoredEntry) (entry : ManifestEntry)
    {key pre : String} (h : startsWith key pre = true) :
    bestKey ⟨files, SortedMap.empty.insert key entry⟩ pre = some key := by
  have hentries : (SortedMap.empty.insert key entry).entries = [(key, entry)] := rfl
  unfold bestKey
  rw [hentries, List.foldl_cons, List.foldl_nil, newerKey, if_pos h]
  rfl

theorem confused_lookup {a b : CacheOwner} (h : Confused a b) (hash : InputHash) :
    ∃ key, (lookup 0 (run 1 [.put 0 b hash [0]]) a hash).2 = some (key, ⟨b, [0]⟩) := by
  rw [run_put]
  unfold lookup getSync
  simp only [SortedMap.get?_insert, SortedMap.get?_empty]
  by_cases hname : entryPath (b.key hash) = entryPath (a.key hash)
  · rw [if_pos hname]
    exact ⟨_, rfl⟩
  · rw [if_neg hname]
    rcases h with hstem | hpre
    · exact absurd (entryPath_congr hstem hash).symm hname
    · have hstarts := (restores_iff a b hash).mpr hpre
      rw [restoreKeys_eq, restore]
      refine ⟨b.key hash, ?_⟩
      simp only [bestKey_single _ _ hstarts, SortedMap.get?_insert, if_true]

/-- A hash of the right form. -/
def zeroHash : InputHash := ⟨"0000000000000000", rfl, by simp⟩

end

/-- Lookups never cross when no two owners in use are confused. -/
theorem never_crosses_iff (used : CacheOwner → Prop) : NeverCrosses used ↔ OwnersApart used := by
  constructor
  · intro h a b ha hb hconfused
    obtain ⟨key, hlookup⟩ := confused_lookup hconfused zeroHash
    have hops : ∀ op ∈ [CacheOp.put 0 b zeroHash [0]], used op.owner := by
      intro op hop
      rw [List.mem_singleton.mp hop]
      exact hb
    exact (h 1 _ hops 0 a zeroHash ha key _ hlookup).symm
  · intro hapart maxSize ops hops now owner hash howner key entry hlookup
    exact lookup_owner hapart (CacheInv.run maxSize hops) howner hlookup

/-- A lookup for the package `@vertz/ui` restores what was stored for
`@vertz/ui-auth`. -/
theorem nested_name_restored : ¬ NeverCrosses (fun _ => True) := by
  intro h
  let ui : CacheOwner := ⟨"build", some "@vertz/ui", "linux-x86_64"⟩
  let uiAuth : CacheOwner := ⟨"build", some "@vertz/ui-auth", "linux-x86_64"⟩
  have hconfused : Confused ui uiAuth := .inr (by decide)
  obtain ⟨key, hlookup⟩ := confused_lookup hconfused zeroHash
  have hsame := h 1 _ (fun _ _ => trivial) 0 ui zeroHash trivial key _ hlookup
  exact absurd (congrArg CacheOwner.package hsame) (by decide)

end Vertz.Proofs
