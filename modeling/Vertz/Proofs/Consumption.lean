import Mathlib.Tactic.Linarith
import Vertz.Proofs.Limits

/-!
# `Vertz.Proofs.Consumption`: all or nothing

`canAndConsume` against stores whose calls may fail. `Progress` says that
exactly the wallets consumed so far hold the amount more; a rollback
takes it back from each of them.
-/

namespace Vertz.Proofs

open Vertz.Lib
open Vertz.Server.Auth
open Vertz.Spec List InMemoryWalletStore

variable {reply : Replies} {config : AccessContextConfig} {mayFail : Prop}

/-! ### The contract of the stores -/

/-- A call is handled by the stores, or fails: in a rollback, or while
nothing was counted. -/
def tallyContract (reply : Replies) (mayFail : Prop) : Contract stores Tally where
  pre _ _ := True
  post op tally result tally' :=
    (result = (handleTally reply op tally).1 ∧ tally' = (handleTally reply op tally).2) ∨
    (mayFail ∧ (undoneKey op = [] → tally.counted = false) ∧ (∃ error, result = .error error) ∧
      tally' = tally.fail op)

theorem fail_of_nil {op : stores.Op} (h : undoneKey op = []) (tally : Tally) :
    tally.fail op = { tally with failed := true } := by
  unfold Tally.fail
  rw [h, append_nil]

theorem undoneKey_of_config {op : stores.Op} (h : isConfigCall op = true) : undoneKey op = [] := by
  cases op <;> first | rfl | cases h

theorem handleTally_config {op : stores.Op} (h : isConfigCall op = true) (tally : Tally) :
    handleTally reply op tally = (reply op, tally) := by
  cases op with
  | getConsumption wallet => cases h
  | consume wallet limit amount => cases h
  | unconsume wallet amount => cases h
  | _ => simp [handleTally, handleStore, hasCounted]

variable {tally : Tally}

/-- A part that only asks for configuration has its fixed result, or one of
its calls fails. -/
theorem config_bind {α β : Type} {p : StoreM α} {f : α → StoreM β} (hcalls : ConfigOnly p)
    {Q : Except StoreError β → Tally → Prop}
    (hok : ∀ a, evalExcept reply p = .ok a → wpExcept (tallyContract reply mayFail) (f a) Q tally)
    (herror : ∀ error, evalExcept reply p = .error error → Q (.error error) tally)
    (hfail : mayFail → tally.counted = false →
      ∀ error, Q (.error error) { tally with failed := true }) :
    wpExcept (tallyContract reply mayFail) (p >>= f) Q tally := by
  rw [wpExcept_bind]
  have hwp : ∀ q : Program stores (Except StoreError α),
      Straight (fun op => isConfigCall op = true) q →
      ∀ R : Except StoreError α → Tally → Prop, R (q.eval reply) tally →
      (mayFail → tally.counted = false → ∀ error, R (.error error) { tally with failed := true }) →
      q.wp (tallyContract reply mayFail) R tally := by
    intro q hq R hR hRfail
    induction q with
    | done result => exact hR
    | call op next ih =>
      refine ⟨trivial, fun result tally' hpost => ?_⟩
      cases hpost with
      | inl hhandled =>
        rw [handleTally_config hq.1] at hhandled
        rw [hhandled.1, hhandled.2]
        show (next (reply op)).wp _ R tally
        have heval : R ((next (reply op)).eval reply) tally := hR
        cases hop : reply op with
        | error error =>
          rw [hop, hq.2.1 error] at heval
          rw [hq.2.1 error]
          exact heval
        | ok value =>
          rw [hop] at heval
          exact ih (.ok value) (hq.2.2 value) heval
      | inr hfailed =>
        obtain ⟨hmay, hcounted, ⟨error, rfl⟩, rfl⟩ := hfailed
        have hnil := undoneKey_of_config hq.1
        rw [hq.2.1 error, fail_of_nil hnil]
        exact hRfail hmay (hcounted hnil) error
  refine hwp p.run hcalls _ ?_ hfail
  have hresult : p.run.eval reply = evalExcept reply p := rfl
  rw [hresult]
  cases hp : evalExcept reply p with
  | error error => exact herror error hp
  | ok a => exact hok a hp

/-! ### Progress -/

/-- The wallets of `consumed` hold the amount more than at the start, and
the others what they held. -/
structure Progress (base : InMemoryWalletStore) (amount : ℚ) (consumed : List WalletRef)
    (tally : Tally) : Prop where
  present : ∀ k ∈ consumed.map key,
    tally.wallets k = some (consumedAt base k + amount)
  absent : ∀ k ∉ consumed.map key,
    consumedAt tally.wallets k = consumedAt base k
  counted : tally.counted = !consumed.isEmpty
  notUndone : tally.notUndone = []

variable {base : InMemoryWalletStore} {amount : ℚ}

/-- The keys in a list have consumed the amount more. -/
theorem Progress.increased {consumed : List WalletRef} (h : Progress base amount consumed tally) :
    Increased (consumed.map key) amount base tally.wallets := by
  intro k
  split
  · rename_i hmem
    show ((tally.wallets k).getD 0) = _
    rw [h.present k hmem]
    rfl
  · rename_i hmem
    exact h.absent k hmem

/-- Nothing has happened yet when nothing was counted. -/
theorem Progress.unchanged {consumed : List WalletRef} (h : Progress base amount consumed tally)
    (hcounted : tally.counted = false) : Increased [] amount base tally.wallets := by
  have hnil : consumed = [] := by
    have hempty := h.counted
    rw [hcounted] at hempty
    simpa using hempty.symm
  subst hnil
  exact h.increased

variable {wallets : InMemoryWalletStore} {wallet : WalletRef}

/-- Take back the amount from a wallet that holds it. -/
theorem unconsume_present {value amount : ℚ}
    (hvalue : wallets (key wallet) = some (value + amount)) (hpos : 0 ≤ value)
    (k : String) :
    wallets.unconsume wallet amount k
      = if k = key wallet then some value else wallets k := by
  unfold InMemoryWalletStore.unconsume
  rw [hvalue]
  show (if k = _ then some (max 0 (value + amount - amount)) else _) = _
  rw [add_sub_cancel_right, max_eq_right hpos]

/-- A rollback takes the amount back from every wallet whose `unconsume`
does not fail. -/
theorem rollback_restores (hpos : Nonnegative base) {consumed : List WalletRef}
    (hnodup : (consumed.map key).Nodup)
    (hpresent : ∀ k ∈ consumed.map key,
      tally.wallets k = some (consumedAt base k + amount))
    (habsent : ∀ k ∉ consumed.map key, consumedAt tally.wallets k
      = if k ∈ tally.notUndone then consumedAt base k + amount else consumedAt base k)
    (hfresh : ∀ k ∈ consumed.map key, k ∉ tally.notUndone) :
    wpExcept (tallyContract reply mayFail) (rollbackCascadedConsumptions amount consumed)
      (fun r tally' => r = .ok () ∧ Increased tally'.notUndone amount base tally'.wallets) tally := by
  induction consumed generalizing tally with
  | nil => exact ⟨rfl, fun k => habsent k (by simp)⟩
  | cons wallet consumed ih =>
    rw [map_cons, nodup_cons] at hnodup
    have hheld := hpresent (key wallet) (by simp)
    have hne : ∀ k ∈ consumed.map key, k ≠ key wallet :=
      fun k hk heq => hnodup.1 (heq ▸ hk)
    show wpExcept _ (tryCatch _ _ >>= _) _ _
    rw [wpExcept_bind]
    refine (wpExcept_tryCatch _ _ _ _).mpr ⟨trivial, fun result tally' hpost => ?_⟩
    cases hpost with
    | inl hhandled =>
      rw [hhandled.1, hhandled.2]
      have hwallet := unconsume_present hheld (hpos _)
      refine ih hnodup.2 (fun k hk => ?_) (fun k hk => ?_)
        (fun k hk => hfresh k (mem_cons_of_mem _ hk))
      · show tally.wallets.unconsume wallet amount k = _
        rw [hwallet, if_neg (hne k hk)]
        exact hpresent k (mem_cons_of_mem _ hk)
      · show ((tally.wallets.unconsume wallet amount k).getD 0)
          = if k ∈ tally.notUndone then _ else _
        rw [hwallet]
        by_cases hkey : k = key wallet
        · rw [if_pos hkey, if_neg (hkey ▸ hfresh _ mem_cons_self), hkey]
          rfl
        · rw [if_neg hkey]
          exact habsent k (by simp [hkey, hk])
    | inr hfailed =>
      -- the wallet keeps the amount
      obtain ⟨hmay, hcounted, ⟨error, rfl⟩, rfl⟩ := hfailed
      refine ih hnodup.2 (fun k hk => hpresent k (mem_cons_of_mem _ hk)) (fun k hk => ?_)
        (fun k hk hmem => ?_)
      · show consumedAt tally.wallets k
          = if k ∈ tally.notUndone ++ [key wallet] then _ else _
        by_cases hkey : k = key wallet
        · rw [if_pos (by simp [hkey]), hkey]
          show ((tally.wallets _).getD 0) = _
          rw [hheld]
          rfl
        · simp only [mem_append, mem_singleton, hkey, or_false]
          exact habsent k (by simp [hkey, hk])
      · cases mem_append.mp hmem with
        | inl hold => exact hfresh k (mem_cons_of_mem _ hk) hold
        | inr hnow => exact hne k hk (mem_singleton.mp hnow)

/-! ### Consuming from a level -/

theorem underCap_spec {lc : LimitConsumption} {Q : Except StoreError Bool → Tally → Prop}
    (hok : Q (.ok (capAdmits lc (tally.wallets.getConsumption lc.wallet) amount)) tally)
    (hfail : mayFail → tally.counted = false →
      ∀ error, Q (.error error) { tally with failed := true }) :
    wpExcept (tallyContract reply mayFail) (underCap lc amount) Q tally := by
  unfold underCap
  split
  · rename_i overage hoverage
    split
    · rename_i cap hcap
      refine (wpExcept_bind _ _ _ _).mpr ⟨trivial, fun result tally' hpost => ?_⟩
      cases hpost with
      | inl hhandled =>
        have htally : tally' = tally := by
          rw [hhandled.2]
          simp [handleTally, handleStore, hasCounted]
        rw [hhandled.1, htally]
        have hadmits : capAdmits lc (tally.wallets.getConsumption lc.wallet) amount
            = !(overageCost overage (max 0 (tally.wallets.getConsumption lc.wallet + amount
              - lc.effectiveMax))).gt cap := by
          simp only [capAdmits, hoverage, hcap]
        rw [hadmits] at hok
        exact hok
      | inr hfailed =>
        obtain ⟨hmay, hcounted, ⟨error, rfl⟩, htally⟩ := hfailed
        have hstate : tally' = { tally with failed := true } := htally.trans (fail_of_nil rfl tally)
        subst hstate
        exact hfail hmay (hcounted rfl) error
    · rename_i hcap
      simp only [capAdmits, hoverage, hcap] at hok
      exact hok
  · rename_i hoverage
    simp only [capAdmits, hoverage] at hok
    exact hok

/-- A call failed before an amount was counted. -/
structure StoppedEarly (base : InMemoryWalletStore) (amount : ℚ) (mayFail : Prop)
    (tally : Tally) : Prop where
  mayFail : mayFail
  failed : tally.failed = true
  unchanged : Increased [] amount base tally.wallets
  notUndone : tally.notUndone = []

theorem Progress.stopped {consumed : List WalletRef} (h : Progress base amount consumed tally)
    (hmay : mayFail) (hcounted : tally.counted = false) :
    StoppedEarly base amount mayFail { tally with failed := true } :=
  ⟨hmay, rfl, h.unchanged hcounted, h.notUndone⟩

/-- What consuming from some limits comes to, after `consumed`. -/
def LimitsOutcome (base : InMemoryWalletStore) (amount : ℚ) (mayFail : Prop)
    (limits : List LimitConsumption) (consumed : List WalletRef) :
    Except StoreError (Option (List WalletRef)) → Tally → Prop
  | .ok (some allConsumed), tally =>
    allConsumed = consumed ++ (finiteLimits limits).map (·.wallet) ∧
      Progress base amount allConsumed tally
  | .ok none, tally => Increased tally.notUndone amount base tally.wallets
  | .error _, tally => StoppedEarly base amount mayFail tally

theorem giveUp_spec (hpos : Nonnegative base) {consumed : List WalletRef}
    (hprog : Progress base amount consumed tally)
    (hnodup : (consumed.map key).Nodup)
    {Q : Except StoreError (Option (List WalletRef)) → Tally → Prop}
    (hQ : ∀ tally', Increased tally'.notUndone amount base tally'.wallets → Q (.ok none) tally') :
    wpExcept (tallyContract reply mayFail) (do
      rollbackCascadedConsumptions amount consumed
      return none) Q tally := by
  rw [wpExcept_bind]
  refine wpExcept_mono (rollback_restores hpos hnodup hprog.present (fun k hk => ?_)
    (fun k _ => by simp [hprog.notUndone])) fun r tally' h => ?_
  · rw [hprog.notUndone]
    exact hprog.absent k hk
  · rw [h.1]
    exact hQ tally' h.2

theorem consume_fits {limit amount : ℚ}
    (h : consumedAt wallets (key wallet) + amount ≤ limit) :
    wallets.consume wallet limit amount = (true, wallets.set (key wallet)
      (consumedAt wallets (key wallet) + amount)) :=
  if_neg (not_lt.mpr h)

theorem consume_over {limit amount : ℚ}
    (h : ¬ consumedAt wallets (key wallet) + amount ≤ limit) :
    wallets.consume wallet limit amount = (false, wallets.set (key wallet)
      (consumedAt wallets (key wallet))) :=
  if_pos (not_le.mp h)

theorem Progress.consumed {amount limit : ℚ} {consumed : List WalletRef}
    (h : Progress base amount consumed tally) (reply : Replies)
    (hnew : key wallet ∉ consumed.map key)
    (hfits : consumedAt base (key wallet) + amount ≤ limit) :
    (handleTally reply (.consume wallet limit amount) tally).1 = .ok true ∧
      Progress base amount (consumed ++ [wallet])
        (handleTally reply (.consume wallet limit amount) tally).2 := by
  rw [← h.absent _ hnew] at hfits
  have hconsume := consume_fits hfits
  unfold handleTally
  simp only [handleStore, hconsume, hasCounted]
  refine ⟨rfl, ⟨fun k hk => ?_, fun k hk => ?_, by simp, h.notUndone⟩⟩
  · show (if k = _ then _ else _) = _
    split
    · rename_i hkey
      rw [hkey, h.absent _ hnew]
    · rename_i hkey
      refine h.present k ?_
      simpa [hkey] using hk
  · rw [map_append, mem_append, not_or] at hk
    have hkey : k ≠ key wallet := by simpa using hk.2
    show ((if k = _ then _ else _ : Option ℚ).getD 0) = _
    rw [if_neg hkey]
    exact h.absent k hk.1

theorem Progress.refused {amount limit : ℚ} {consumed : List WalletRef}
    (h : Progress base amount consumed tally) (reply : Replies)
    (hnew : key wallet ∉ consumed.map key)
    (hover : ¬ consumedAt base (key wallet) + amount ≤ limit) :
    (handleTally reply (.consume wallet limit amount) tally).1 = .ok false ∧
      Progress base amount consumed (handleTally reply (.consume wallet limit amount) tally).2 := by
  rw [← h.absent _ hnew] at hover
  have hconsume := consume_over hover
  unfold handleTally
  simp only [handleStore, hconsume, hasCounted, Bool.or_false]
  refine ⟨rfl, ⟨fun k hk => ?_, fun k hk => ?_, h.counted, h.notUndone⟩⟩
  · have hkey : k ≠ key wallet := fun heq => hnew (heq ▸ hk)
    show (if k = _ then _ else _) = _
    rw [if_neg hkey]
    exact h.present k hk
  · show ((if k = _ then _ else _ : Option ℚ).getD 0) = _
    split
    · rename_i hkey
      rw [hkey]
      exact h.absent _ hnew
    · exact h.absent k hk

variable {limits : List LimitConsumption}

/-- One limit more, that needs nothing or took the amount. -/
theorem LimitsOutcome.cons {lc : LimitConsumption} {consumed consumed' : List WalletRef}
    (hwallets : consumed' ++ (finiteLimits limits).map (·.wallet)
      = consumed ++ (finiteLimits (lc :: limits)).map (·.wallet))
    {r : Except StoreError (Option (List WalletRef))}
    (h : LimitsOutcome base amount mayFail limits consumed' r tally) :
    LimitsOutcome base amount mayFail (lc :: limits) consumed r tally := by
  match r, h with
  | .error _, h => exact h
  | .ok none, h => exact h
  | .ok (some allConsumed), h => exact ⟨h.1.trans hwallets, h.2⟩

theorem consumeLimits_spec (hpos : Nonnegative base) {consumed : List WalletRef}
    (hprog : Progress base amount consumed tally)
    (hnodup : (consumed.map key ++ walletKeys (finiteLimits limits)).Nodup) :
    wpExcept (tallyContract reply mayFail) (consumeLimits amount limits consumed)
      (LimitsOutcome base amount mayFail limits consumed) tally := by
  induction limits generalizing consumed tally with
  | nil => exact ⟨by simp [finiteLimits], hprog⟩
  | cons lc limits ih =>
    have hconsumed := hnodup.of_append_left
    have hfail : mayFail → tally.counted = false → ∀ error,
        LimitsOutcome base amount mayFail (lc :: limits) consumed (.error error)
          { tally with failed := true } :=
      fun hmay hcounted _ => hprog.stopped hmay hcounted
    have hrefuse : ∀ tally', Progress base amount consumed tally' →
        wpExcept (tallyContract reply mayFail) (do
          rollbackCascadedConsumptions amount consumed
          return none) (LimitsOutcome base amount mayFail (lc :: limits) consumed) tally' :=
      fun tally' hprog' => giveUp_spec hpos hprog' hconsumed fun _ hundone => hundone
    unfold consumeLimits
    by_cases hunlimited : lc.effectiveMax = -1
    · -- an unlimited limit is skipped
      have hskip : finiteLimits (lc :: limits) = finiteLimits limits := by
        simp [finiteLimits, hunlimited]
      rw [if_pos hunlimited]
      rw [hskip] at hnodup
      refine wpExcept_mono (ih hprog hnodup) fun r tally' h => h.cons ?_
      rw [hskip]
    · have hfinite : finiteLimits (lc :: limits) = lc :: finiteLimits limits := by
        simp [finiteLimits, hunlimited]
      rw [hfinite] at hnodup
      have hnew : key lc.wallet ∉ consumed.map key :=
        fun hmem => (disjoint_of_nodup_append hnodup) hmem mem_cons_self
      have hvalue : tally.wallets.getConsumption lc.wallet
          = consumedAt base (key lc.wallet) := hprog.absent _ hnew
      rw [if_neg hunlimited]
      by_cases hzero : lc.effectiveMax = 0
      · rw [if_pos hzero]
        exact hrefuse tally hprog
      · rw [if_neg hzero, wpExcept_bind]
        refine underCap_spec ?_ hfail
        rw [hvalue]
        cases hcap : capAdmits lc (consumedAt base (key lc.wallet)) amount with
        | false => exact hrefuse tally hprog
        | true =>
          refine (wpExcept_bind _ _ _ _).mpr ⟨trivial, fun result tally' hpost => ?_⟩
          cases hpost with
          | inr hfailed =>
            obtain ⟨hmay, hcounted, ⟨error, rfl⟩, htally⟩ := hfailed
            have hstate : tally' = { tally with failed := true } := htally.trans (fail_of_nil rfl tally)
            subst hstate
            exact hfail hmay (hcounted rfl) error
          | inl hhandled =>
            by_cases hfits : consumedAt base (key lc.wallet) + amount
                ≤ consumeBound lc
            · have hstep := hprog.consumed reply hnew hfits
              have hresult : result = .ok true := hhandled.1.trans hstep.1
              have hprog' : Progress base amount (consumed ++ [lc.wallet]) tally' := by
                rw [hhandled.2]
                exact hstep.2
              have hkeys : ((consumed ++ [lc.wallet]).map key
                  ++ walletKeys (finiteLimits limits)).Nodup := by
                simpa [walletKeys] using hnodup
              have hwallets : (consumed ++ [lc.wallet])
                  ++ (finiteLimits limits).map (·.wallet)
                  = consumed ++ (finiteLimits (lc :: limits)).map (·.wallet) := by
                simp [hfinite]
              have hrest := wpExcept_mono (ih hprog' hkeys) fun r tally'' h =>
                LimitsOutcome.cons hwallets h
              subst hresult
              exact hrest
            · have hstep := hprog.refused reply hnew hfits
              have hresult : result = .ok false := hhandled.1.trans hstep.1
              have hprog' : Progress base amount consumed tally' := by
                rw [hhandled.2]
                exact hstep.2
              subst hresult
              exact hrefuse tally' hprog'

/-! ### Consuming from a chain -/

/-- What consuming from a chain of levels comes to, after `consumed`. -/
def ChainOutcome (base : InMemoryWalletStore) (amount : ℚ) (mayFail : Prop)
    (limits : List LimitConsumption) (consumed : List WalletRef) :
    Except StoreError Bool → Tally → Prop
  | .ok true, tally =>
    Progress base amount (consumed ++ (finiteLimits limits).map (·.wallet)) tally
  | .ok false, tally => Increased tally.notUndone amount base tally.wallets
  | .error _, tally => StoppedEarly base amount mayFail tally

variable {entitlement : String}

theorem chainLimits_cons {entry : ChainEntry} {chain : List ChainEntry}
    (h : LevelLimits reply config entitlement entry limits) :
    chainLimits reply config entitlement (entry :: chain)
      = limits ++ chainLimits reply config entitlement chain := by
  unfold LevelLimits at h
  simp only [chainLimits, flatMap_cons, h]

theorem finiteLimits_append (limits limits' : List LimitConsumption) :
    finiteLimits (limits ++ limits') = finiteLimits limits ++ finiteLimits limits' :=
  filter_append ..

theorem consumeChain_spec (hpos : Nonnegative base) (hreply : ∀ op, ∃ value, reply op = .ok value)
    {chain : List ChainEntry} {consumed : List WalletRef}
    (hprog : Progress base amount consumed tally) (hnodup : (consumed.map key
      ++ walletKeys (finiteLimits (chainLimits reply config entitlement chain))).Nodup) :
    wpExcept (tallyContract reply mayFail) (consumeChain config entitlement amount chain consumed)
      (ChainOutcome base amount mayFail (chainLimits reply config entitlement chain) consumed)
      tally := by
  induction chain generalizing consumed tally with
  | nil =>
    show Progress base amount (consumed ++ _) tally
    simpa [chainLimits, finiteLimits] using hprog
  | cons entry chain ih =>
    unfold consumeChain
    refine config_bind (resolveAllLimitConsumptions_calls config _ _ _ _ _)
      (fun limits hlimits => ?_) (fun error herror => ?_)
      (fun hmay hcounted _ => hprog.stopped hmay hcounted)
    · rw [chainLimits_cons hlimits, finiteLimits_append] at hnodup
      rw [chainLimits_cons hlimits]
      have hkeys : (consumed.map key ++ walletKeys (finiteLimits limits)).Nodup := by
        rw [walletKeys, map_append, ← append_assoc] at hnodup
        exact hnodup.of_append_left
      rw [wpExcept_bind]
      refine wpExcept_mono (consumeLimits_spec hpos hprog hkeys) fun r tally' hlevel => ?_
      match r, hlevel with
      | .error error, hlevel => exact hlevel
      | .ok none, hlevel => exact hlevel
      | .ok (some allConsumed), hlevel =>
        obtain ⟨rfl, hprog'⟩ := hlevel
        have hkeys' : ((consumed ++ (finiteLimits limits).map (·.wallet)).map
            key
            ++ walletKeys (finiteLimits (chainLimits reply config entitlement chain))).Nodup := by
          simpa [walletKeys, map_append, Function.comp_def] using hnodup
        refine wpExcept_mono (ih hprog' hkeys') fun r' tally'' hrest => ?_
        match r', hrest with
        | .error error, hrest => exact hrest
        | .ok false, hrest => exact hrest
        | .ok true, hrest =>
          show Progress base amount (consumed ++ _) tally''
          rw [finiteLimits_append, map_append, ← append_assoc]
          exact hrest
    · obtain ⟨limits, hlimits⟩ := CallsOnly.eval_ok
        (resolveAllLimitConsumptions_calls config entry.org entitlement entry.planId
          entry.subscription entry.overrides) (fun op _ => hreply op)
      rw [hlimits] at herror
      cases herror

/-! ### `canAndConsume` -/

variable {resource : Option ResourceRef}

/-- The layers first, then the chain. A store that does not answer is the
only way to fail before the chain. -/
theorem canAndConsume_wp (hreply : ∀ op, ∃ value, reply op = .ok value)
    {Q : Except StoreError Bool → Tally → Prop} (hfail : mayFail → tally.counted = false →
      ∀ error, Q (.error error) { tally with failed := true })
    (hdenied : ∀ org overrides ancestors,
      LayersDecide reply config entitlement resource org overrides ancestors false → Q (.ok false) tally)
    (hfree : ∀ org overrides ancestors,
      LayersDecide reply config entitlement resource org overrides ancestors true →
      (hasWallets config = false ∨ config.accessDef.limitKeys entitlement = []) → Q (.ok true) tally)
    (hnoOrg : ∀ overrides ancestors,
      LayersDecide reply config entitlement resource none overrides ancestors true →
      hasWallets config = true → config.accessDef.limitKeys entitlement ≠ [] → Q (.ok false) tally)
    (hchain : ∀ org overrides ancestors chain,
      LayersDecide reply config entitlement resource (some org) overrides ancestors true →
      hasWallets config = true → config.accessDef.limitKeys entitlement ≠ [] →
      evalExcept reply (buildConsumptionChain config org entitlement) = .ok chain →
      if chain.isEmpty then Q (.ok false) tally else
        wpExcept (tallyContract reply mayFail) (tryCatch
          (consumeChain config entitlement amount chain []) (onCloudError config)) Q tally) :
    wpExcept (tallyContract reply mayFail) (canAndConsume config entitlement resource amount) Q
      tally := by
  have hok : ∀ {α : Type} {p : StoreM α}, ConfigOnly p → ∀ error,
      evalExcept reply p = .error error → Q (.error error) tally := by
    intro α p hcalls error herror
    obtain ⟨value, hvalue⟩ := hcalls.eval_ok fun op _ => hreply op
    rw [hvalue] at herror
    cases herror
  unfold canAndConsume
  have horg := resolveOrg_calls config resource
  refine config_bind horg (fun org horg => ?_) (hok horg) hfail
  have hoverrides := orgOverrides_calls config org
  refine config_bind hoverrides (fun overrides hoverrides => ?_) (hok hoverrides) hfail
  have hancestors := orgChain_calls config org
  refine config_bind hancestors (fun ancestors hancestors => ?_) (hok hancestors) hfail
  have hallowed := checkLayers1to3_calls config entitlement resource org overrides ancestors
  refine config_bind hallowed (fun allowed hallowed => ?_) (hok hallowed) hfail
  have hlayers : LayersDecide reply config entitlement resource org overrides ancestors allowed :=
    ⟨horg, hoverrides, hancestors, hallowed⟩
  cases allowed with
  | false => exact hdenied org overrides ancestors hlayers
  | true =>
    show wpExcept _ (if (!hasWallets config) = true then _ else _) Q tally
    cases hwallets : hasWallets config with
    | false => exact hfree org overrides ancestors hlayers (.inl hwallets)
    | true =>
      rw [if_neg (by decide)]
      by_cases hkeys : config.accessDef.limitKeys entitlement = []
      · rw [if_pos (by rw [hkeys]; rfl)]
        exact hfree org overrides ancestors hlayers (.inr hkeys)
      · rw [if_neg (by simpa using hkeys)]
        cases org with
        | none => exact hnoOrg overrides ancestors hlayers hwallets hkeys
        | some org =>
          have hbuild := buildConsumptionChain_calls config org entitlement
          refine config_bind hbuild (fun chain hbuild => ?_) (hok hbuild) hfail
          have hrest := hchain org overrides ancestors chain hlayers hwallets hkeys hbuild
          split
          · rename_i hempty
            rw [if_pos hempty] at hrest
            exact hrest
          · rename_i hnonempty
            rw [if_neg hnonempty] at hrest
            exact hrest

theorem resourceLimits_unique {org : ResourceRef} {chain : List ChainEntry}
    (horg : evalExcept reply (resolveOrg config resource) = .ok (some org))
    (hbuild : evalExcept reply (buildConsumptionChain config org entitlement) = .ok chain)
    (h : ResourceLimits reply config entitlement resource limits) :
    limits = finiteLimits (chainLimits reply config entitlement chain) := by
  obtain ⟨org', chain', horg', hbuild', rfl⟩ := h
  rw [horg] at horg'
  cases horg'
  rw [hbuild] at hbuild'
  cases hbuild'
  rfl

/-- A level without limit keys does not count. -/
theorem resourceLimits_nil (hkeys : config.accessDef.limitKeys entitlement = [])
    (h : ResourceLimits reply config entitlement resource limits) : limits = [] := by
  obtain ⟨org, chain, horg, hbuild, rfl⟩ := h
  cases chain with
  | nil => rfl
  | cons entry chain =>
    have hentry := mem_buildConsumptionChain hbuild entry mem_cons_self
    have hlimits := (resolveChainEntry_eq_some hentry).2.2
    unfold planLimits at hlimits
    rw [hkeys] at hlimits
    split at hlimits <;> cases hlimits

theorem allOrNothing_denied {before : InMemoryWalletStore} {result : Except StoreError Bool}
    {after : Tally} (hresult : result ≠ .ok true)
    (h : Increased after.notUndone amount before after.wallets) :
    AllOrNothing reply config entitlement resource amount before result after :=
  ⟨fun _ => h, fun h => absurd h hresult⟩

theorem canAndConsume_outcome (hreply : ∀ op, ∃ value, reply op = .ok value)
    (hstores : hasWallets config = true) (hpos : Nonnegative wallets)
    (hkeys : ∀ limits, ResourceLimits reply config entitlement resource limits →
      (walletKeys limits).Nodup) :
    wpExcept (tallyContract reply True) (canAndConsume config entitlement resource amount)
      (AllOrNothing reply config entitlement resource amount wallets)
      ⟨wallets, false, false, []⟩ := by
  have hstart : Progress wallets amount [] ⟨wallets, false, false, []⟩ :=
    ⟨by simp, fun k _ => rfl, rfl, rfl⟩
  have hsame : Increased [] amount wallets wallets := fun k => by simp
  refine canAndConsume_wp hreply (fun _ _ _ => allOrNothing_denied (by simp) hsame)
    (fun _ _ _ _ => allOrNothing_denied (by simp) hsame)
    (fun _ _ _ _ hfree => ⟨fun h => absurd rfl h, fun _ => .inl fun limits hlimits => ?_⟩)
    (fun _ _ _ _ _ => allOrNothing_denied (by simp) hsame)
    (fun org overrides ancestors chain hlayers _ _ hbuild => ?_)
  · cases hfree with
    | inl hnone => rw [hstores] at hnone; cases hnone
    | inr hnil => rw [resourceLimits_nil hnil hlimits]; exact hsame
  · split
    · exact allOrNothing_denied (by simp) hsame
    · have hnodup := hkeys _ ⟨org, chain, hlayers.org, hbuild, rfl⟩
      rw [wpExcept_tryCatch]
      refine wpExcept_mono (consumeChain_spec hpos hreply hstart (by simpa using hnodup))
        fun result after hresult => ?_
      match result, hresult with
      | .ok true, hresult =>
        refine ⟨fun h => absurd rfl h, fun _ => .inl fun limits hlimits => ?_⟩
        rw [resourceLimits_unique hlayers.org hbuild hlimits]
        have hincreased := Progress.increased hresult
        simpa [walletKeys, Function.comp_def] using hincreased
      | .ok false, hresult => exact allOrNothing_denied (by simp) hresult
      | .error error, hresult =>
        show wpExcept _ (onCloudError config error) _ after
        have hdenied : Increased after.notUndone amount wallets after.wallets := by
          rw [hresult.notUndone]
          exact hresult.unchanged
        unfold onCloudError
        split
        · exact allOrNothing_denied (by simp) hdenied
        · rename_i mode hmode
          cases mode with
          | «open» =>
            exact ⟨fun h => absurd rfl h,
              fun _ => .inr ⟨hmode, hresult.failed, hresult.unchanged⟩⟩
          | closed => exact allOrNothing_denied (by decide) hdenied
          | cached => exact allOrNothing_denied (by decide) hdenied

theorem handleTrial_keeps {failures : Failures} (hearly : FailsEarly failures) (op : stores.Op)
    (trial : Trial) :
    (tallyContract reply True).post op trial.tally (handleTrial reply failures op trial).1
      (handleTrial reply failures op trial).2.tally := by
  unfold handleTrial
  split
  · rename_i error herror
    refine .inr ⟨trivial, fun hnil => ?_, ⟨error, rfl⟩, rfl⟩
    cases hcounted : trial.tally.counted with
    | false => rfl
    | true =>
      rw [hearly op _ _ hcounted hnil] at herror
      cases herror
  · exact .inl ⟨rfl, rfl⟩

/-- Invites of a team count in its seats and in its mails. -/
def mailsConfig (mails : ℚ) : AccessContextConfig :=
  { teamConfig ⟨5, none, none⟩ with
    accessDef :=
      { (teamConfig ⟨5, none, none⟩).accessDef with
        plans := some (.ofList [("pro", ⟨none,
          some (.ofList [("seats", ⟨5, none, none⟩), ("mails", ⟨mails, none, none⟩)])⟩)])
        entitlementToLimitKeys := .ofList [("team:invite", ["seats", "mails"])] }
    cloudFailMode := some .closed }

/-- The team with its subscription, and nothing else. -/
def teamAnswers : Answers := fun op =>
  match op with
  | .orgResolver _ => some ⟨"team", "t1"⟩
  | .ancestorResolver _ _ => []
  | .getEffectiveRole _ _ _ => none
  | .getFlag _ _ _ => false
  | .getFlags _ _ => .empty
  | .getOverrides _ _ => none
  | .getSubscription type id =>
    if type = "team" ∧ id = "t1" then some ⟨"pro", 0, none, .empty⟩ else none
  | .getAddOns _ _ => none
  | .getTenantVersion _ _ _ => none
  | .getVersion _ _ => none
  | .getConsumption _ => (0 : ℚ)
  | .consume _ _ _ => true
  | .unconsume _ _ => ()

/-- Every call of a rollback fails. -/
def rollbackFails : Failures := fun op _ _ =>
  if undoneKey op = [] then none else some ⟨"unavailable"⟩

/-- The second wallet is down. -/
def secondFails : Failures := fun op _ tally =>
  match op with
  | .consume _ _ _ => if tally.counted then some ⟨"unavailable"⟩ else none
  | _ => none

end Vertz.Proofs
