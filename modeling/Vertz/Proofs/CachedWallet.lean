import Vertz.Spec.WalletRuns

/-!
# `Vertz.Proofs.CachedWallet`: when a cached wallet serves the cloud's amounts

`Covered` is the invariant of a careful run: an entry of the cache is what
the cloud holds, or a mutation of its key has reached the cloud and is
still in flight. `step_covered` is the step lemma, with one lemma for a
call that reaches the cloud and one for a call that leaves the flight.
`careful_run_coherent` is the result for whole runs.

`slow_read_restores_old_amount` is a run in which a read that overlaps a
mutation comes back after it.
-/

namespace Vertz.Spec

open Vertz.Lib Vertz.Server.Auth List

variable {W : Type} {inner : InnerStore W}

/-- A call that reaches the cloud leaves the wallets whose key it does not
mutate. -/
theorem WalletCall.perform_getConsumption (hinner : KeepsOthers inner) (call : WalletCall)
    (wallets : W) {wallet : WalletAddress} (hkey : call.mutates ≠ some (cacheKey wallet)) :
    inner.getConsumption (call.perform inner wallets).2 wallet
      = inner.getConsumption wallets wallet := by
  cases call with
  | getConsumption _ => rfl
  | getBatchConsumption _ _ _ _ _ => rfl
  | consume target limit amount =>
    exact hinner.consume wallets target limit amount wallet fun h => hkey (congrArg some h.symm)
  | unconsume target amount =>
    exact hinner.unconsume wallets target amount wallet fun h => hkey (congrArg some h.symm)

/-- What a call that came back leaves in the cache: an entry it stored, or
one of a key it did not mutate. -/
theorem WalletCall.resolved_cache {store : CachedWalletStore} {now : ℤ} {call : WalletCall}
    {reply : call.Reply} {key : String} {entry : CacheEntry}
    (h : (call.resolved store now reply).cache key = some entry) :
    call.stores reply = some (key, entry.value) ∨
      (store.cache key = some entry ∧ call.mutates ≠ some key) := by
  cases call with
  | getBatchConsumption _ _ _ _ _ => exact .inr ⟨h, nofun⟩
  | getConsumption wallet =>
    rcases CachedWalletStore.of_cacheSet h with ⟨rfl, rfl⟩ | ⟨-, hold⟩
    · exact .inl rfl
    · exact .inr ⟨hold, nofun⟩
  | consume wallet limit amount =>
    rcases CachedWalletStore.of_cacheSet h with ⟨rfl, rfl⟩ | ⟨hne, hold⟩
    · exact .inl rfl
    · exact .inr ⟨hold, fun hm => hne (Option.some.inj hm).symm⟩
  | unconsume wallet amount =>
    obtain ⟨hne, hold⟩ := CachedWalletStore.of_cacheDelete h
    exact .inr ⟨hold, fun hm => hne (Option.some.inj hm).symm⟩

namespace CachedRun

/-- Every entry of the cache is current, or a mutation that reached the
cloud is still to come back. -/
def Covered (inner : InnerStore W) (run : CachedRun W) : Prop :=
  ∀ key entry, run.store.cache key = some entry →
    run.Holds inner key entry.value ∨ ∃ other ∈ run.inFlight, other.Mutated key

theorem start_covered (cacheTtlMs : Option ℚ) (wallets : W) :
    (start cacheTtlMs wallets).Covered inner := nofun

theorem awaited_of_not_mutated {run : CachedRun W} {position : ℕ} {pending : CloudCall}
    {key : String} (hpending : run.inFlight[position]? = some pending)
    (hnot : ¬ pending.Mutated key) (h : ∃ other ∈ run.inFlight, other.Mutated key) :
    run.Awaited position key := by
  obtain ⟨other, hmem, hmutated⟩ := h
  obtain ⟨i, hi⟩ := mem_iff_getElem?.mp hmem
  refine ⟨other, mem_eraseIdx_iff_getElem?.mpr ⟨i, ?_, hi⟩, hmutated⟩
  intro heq
  rw [heq, hpending] at hi
  cases hi
  exact hnot hmutated

/-- Other calls in flight stay when one of them is replaced. -/
theorem mem_set_of_awaited {calls : List CloudCall} {position : ℕ} {pending other : CloudCall}
    (h : other ∈ calls.eraseIdx position) : other ∈ calls.set position pending := by
  obtain ⟨i, hne, hi⟩ := mem_eraseIdx_iff_getElem?.mp h
  refine mem_iff_getElem?.mpr ⟨i, ?_⟩
  rw [getElem?_set_ne (Ne.symm hne)]
  exact hi

/-- A call that reaches the cloud is itself in flight. -/
theorem reach_covered (hinner : KeepsOthers inner) {run : CachedRun W} (h : run.Covered inner)
    {position : ℕ} {call : WalletCall} (hpending : run.inFlight[position]? = some ⟨call, none⟩) :
    ({ run with
        wallets := (call.perform inner run.wallets).2
        inFlight := run.inFlight.set position ⟨call, some (call.perform inner run.wallets).1⟩ } :
      CachedRun W).Covered inner := by
  intro key entry hentry
  obtain ⟨hlt, -⟩ := List.getElem?_eq_some_iff.mp hpending
  by_cases hkey : call.mutates = some key
  · exact .inr ⟨_, mem_set hlt _, rfl, hkey⟩
  · rcases h key entry hentry with hholds | hmutated
    · refine .inl fun wallet hwallet => ?_
      show inner.getConsumption (call.perform inner run.wallets).2 wallet = _
      rw [call.perform_getConsumption hinner run.wallets (by rwa [hwallet])]
      exact hholds wallet hwallet
    · have hnot : ¬ CloudCall.Mutated ⟨call, none⟩ key := fun hm => nomatch hm.1
      obtain ⟨other, hmem, hother⟩ := awaited_of_not_mutated hpending hnot hmutated
      exact .inr ⟨other, mem_set_of_awaited hmem, hother⟩

/-- A call leaves the flight with each entry of the cache current or
awaited. -/
theorem leave_covered {run : CachedRun W} {position : ℕ} {store : CachedWalletStore}
    (h : ∀ key entry, store.cache key = some entry →
      run.Holds inner key entry.value ∨ run.Awaited position key) :
    ({ run with store := store, inFlight := run.inFlight.eraseIdx position } :
      CachedRun W).Covered inner := h

theorem step_covered (hinner : KeepsOthers inner) (run : CachedRun W) (action : CachedStep)
    (h : run.Covered inner) (hcareful : run.Careful inner action) :
    (run.step inner action).Covered inner := by
  cases action with
  | call call now =>
    simp only [step]
    split
    · exact h
    · intro key entry hentry
      refine (h key entry hentry).imp_right ?_
      rintro ⟨other, hmem, hother⟩
      exact ⟨other, mem_append_left _ hmem, hother⟩
  | reach position =>
    simp only [step]
    split
    · next call hpending => exact reach_covered hinner h hpending
    · exact h
  | resolve position now =>
    simp only [step]
    split
    · next call reply hpending =>
        refine leave_covered fun key entry hentry => ?_
        rcases WalletCall.resolved_cache hentry with hstores | ⟨hold, hnot⟩
        · exact hcareful call reply hpending key entry.value hstores
        · exact (h key entry hold).imp_right
            (awaited_of_not_mutated hpending fun hm => hnot hm.2)
    · exact h
  | reject position =>
    cases hpending : run.inFlight[position]? with
    | none =>
      have hlen := getElem?_eq_none_iff.mp hpending
      simpa only [step, eraseIdx_of_length_le hlen] using h
    | some pending =>
      refine leave_covered fun key entry hentry => ?_
      by_cases hmutated : pending.Mutated key
      · exact hcareful pending hpending key hmutated entry hentry
      · exact (h key entry hentry).imp_right (awaited_of_not_mutated hpending hmutated)

/-- What a covered cache serves with no call in flight is current. -/
theorem Covered.coherent {run : CachedRun W} (h : run.Covered inner) : run.Coherent inner := by
  intro hidle wallet now value hread
  simp only [CachedWalletStore.getConsumption] at hread
  split at hread
  · next cached hcached =>
      split at hread
      · cases hread
        rcases h _ cached hcached with hholds | ⟨other, hmem, -⟩
        · exact (hholds wallet rfl).symm
        · rw [hidle] at hmem
          cases hmem
      · cases hread
  · cases hread

/-- After a run of careful steps a cached wallet store is coherent. -/
theorem careful_run_coherent (inner : InnerStore W) (hinner : KeepsOthers inner)
    (cacheTtlMs : Option ℚ) (wallets : W) (actions : List CachedStep)
    (hcareful : Along (step inner) (Careful inner) (start cacheTtlMs wallets) actions) :
    (actions.foldl (step inner) (start cacheTtlMs wallets)).Coherent inner :=
  Covered.coherent <| Along.invariant (step_covered hinner) (start_covered cacheTtlMs wallets)
    hcareful

/-! ### The in-memory wallet store behind the cache -/

theorem inMemory_keepsOthers : KeepsOthers InMemoryWalletStore.inner where
  consume entries wallet limit amount other hne := by
    have hkey : InMemoryWalletStore.key other.toWalletRef
        ≠ InMemoryWalletStore.key wallet.toWalletRef := hne
    simp only [InMemoryWalletStore.inner, InMemoryWalletStore.consume]
    split <;>
      simp only [InMemoryWalletStore.getConsumption, InMemoryWalletStore.set, if_neg hkey]
  unconsume entries wallet amount other hne := by
    have hkey : InMemoryWalletStore.key other.toWalletRef
        ≠ InMemoryWalletStore.key wallet.toWalletRef := hne
    simp only [InMemoryWalletStore.inner, InMemoryWalletStore.unconsume]
    split
    · simp only [InMemoryWalletStore.getConsumption, InMemoryWalletStore.set, if_neg hkey]
    · rfl

/-- A wallet of a project in some period. -/
def projectWallet : WalletAddress := ⟨⟨"project", "p1", "project:export", 0⟩, 100⟩

/-- A read reaches the cloud before a mutation and comes back before it. -/
theorem careful_run_coherent_overlap :
    CachedRun.Coherent InMemoryWalletStore.inner
      ([.call (.getConsumption projectWallet) 0, .reach 0, .call (.consume projectWallet 10 3) 1,
        .reach 1, .resolve 0 2, .resolve 0 3].foldl (step InMemoryWalletStore.inner)
        (start none fun _ => none)) := by
  refine careful_run_coherent InMemoryWalletStore.inner inMemory_keepsOthers none (fun _ => none)
    _ ⟨trivial, trivial, trivial, trivial, ?_, ?_, trivial⟩
  · intro call reply hpending key value hstores
    cases hpending
    cases hstores
    exact .inr ⟨_, mem_singleton.mpr rfl, rfl, rfl⟩
  · intro call reply hpending key value hstores
    cases hpending
    cases hstores
    refine .inl fun wallet hwallet => ?_
    have hkey : InMemoryWalletStore.key wallet.toWalletRef
      = InMemoryWalletStore.key projectWallet.toWalletRef := hwallet
    show InMemoryWalletStore.getConsumption _ wallet.toWalletRef = _
    simp only [InMemoryWalletStore.getConsumption, hkey]
    rfl

/-- A read reaches the cloud, a mutation is issued and comes back, and
then the read comes back. -/
theorem slow_read_restores_old_amount :
    ¬ ∀ (cacheTtlMs : Option ℚ) (wallets : InMemoryWalletStore) (actions : List CachedStep),
      CachedRun.Coherent InMemoryWalletStore.inner
        (actions.foldl (step InMemoryWalletStore.inner) (start cacheTtlMs wallets)) := by
  intro h
  have hread := h none (fun _ => none)
    [.call (.getConsumption projectWallet) 0, .reach 0, .call (.consume projectWallet 10 3) 1,
      .reach 1, .resolve 1 2, .resolve 0 3] rfl projectWallet 4 0 (by decide +kernel)
  exact absurd hread (by decide +kernel)

end CachedRun

end Vertz.Spec
