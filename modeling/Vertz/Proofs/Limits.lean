import Vertz.Proofs.AccessDecision
import Vertz.Proofs.StoreCalls

/-!
# `Vertz.Proofs.Limits`: the limits at a billing level

What the resolution of billing levels and of their limits finds under
fixed replies.
-/

namespace Vertz.Proofs

open Vertz.Lib
open Vertz.Server.Auth
open Vertz.Spec

variable {reply : Replies} {config : AccessContextConfig}

theorem consumedAt_set (wallets : InMemoryWalletStore) (k k' : String) (consumed : ℚ) :
    consumedAt (wallets.set k consumed) k' = if k' = k then consumed else consumedAt wallets k' := by
  unfold consumedAt InMemoryWalletStore.set
  split <;> rfl

/-- What the stores and the definition have to say for a level to count. -/
structure EntryFacts (reply : Replies) (config : AccessContextConfig) (entry : ChainEntry) :
    Prop where
  subscription : reply (.getSubscription entry.org.type entry.org.id) = .ok (some entry.subscription)
  plan : present (resolveEffectivePlan (some entry.subscription) config.accessDef.plans
    (if entry.org.type = "" then some "" else config.accessDef.levelDefault entry.org.type)
    config.now) = some entry.planId
  overrides : evalExcept reply (overridesOf config entry.org.type entry.org.id)
    = .ok entry.overrides

theorem resolveChainEntry_eq_some {entitlement : String} {org : ResourceRef} {entry : ChainEntry}
    (h : evalExcept reply (resolveChainEntry config entitlement org) = .ok (some entry)) :
    entry.org = org ∧ EntryFacts reply config entry
      ∧ planLimits config entry.planId entitlement = true := by
  unfold resolveChainEntry at h
  rw [evalExcept_bind] at h
  obtain ⟨found, hfound, h⟩ := bind_eq_ok h
  cases found with
  | none => cases h
  | some subscription =>
    dsimp only at h
    split at h
    · cases h
    · rename_i planId hplan
      split at h
      · cases h
      · rename_i hlimits
        rw [evalExcept_bind] at h
        obtain ⟨overrides, hoverrides, h⟩ := bind_eq_ok h
        cases h
        exact ⟨rfl, ⟨hfound, hplan, hoverrides⟩, by simpa using hlimits⟩

theorem mem_resolveChainEntries {entitlement : String} {orgs : List ResourceRef}
    {entries : List ChainEntry}
    (h : evalExcept reply (resolveChainEntries config entitlement orgs) = .ok entries) :
    ∀ entry ∈ entries,
      evalExcept reply (resolveChainEntry config entitlement entry.org) = .ok (some entry) := by
  induction orgs generalizing entries with
  | nil =>
    cases h
    intro entry hentry
    cases hentry
  | cons org orgs ih =>
    unfold resolveChainEntries at h
    simp only [evalExcept_bind, evalExcept_pure] at h
    obtain ⟨found, hfound, h⟩ := bind_eq_ok h
    obtain ⟨rest, hrest, h⟩ := bind_eq_ok h
    intro entry hentry
    cases h
    cases found with
    | none => exact ih hrest entry hentry
    | some first =>
      cases hentry with
      | head => rw [(resolveChainEntry_eq_some hfound).1, hfound]
      | tail _ hmem => exact ih hrest entry hmem

theorem mem_buildConsumptionChain {entitlement : String} {org : ResourceRef}
    {chain : List ChainEntry}
    (h : evalExcept reply (buildConsumptionChain config org entitlement) = .ok chain) :
    ∀ entry ∈ chain,
      evalExcept reply (resolveChainEntry config entitlement entry.org) = .ok (some entry) := by
  unfold buildConsumptionChain at h
  split at h
  · cases h
    intro entry hentry
    cases hentry
  · split at h
    · obtain ⟨ancestors, hancestors, h⟩ := bind_eq_ok ((evalExcept_bind reply _ _).symm.trans h)
      exact mem_resolveChainEntries h
    · exact mem_resolveChainEntries h

/-- The limit that a limit key has at a level. -/
structure LimitFacts (reply : Replies) (config : AccessContextConfig) (org : ResourceRef)
    (subscription : Subscription) (planId : String) (snapshot : Option PlanSnapshot)
    (overrides : Option TenantOverrides) (limitKey : String) (limitDef : LimitDef)
    (lc : LimitConsumption) : Prop where
  defined : limitDefOf config snapshot planId limitKey = some limitDef
  effectiveMax : evalExcept reply (computeEffectiveLimit config limitDef.max limitKey org
    subscription overrides) = .ok lc.effectiveMax
  wallet : lc.wallet = walletOf org limitKey (limitPeriod config subscription limitDef)
  overage : lc.overage = limitDef.overage

theorem mem_limitConsumptions {org : ResourceRef} {subscription : Subscription} {planId : String}
    {snapshot : Option PlanSnapshot} {overrides : Option TenantOverrides}
    {limitKeys : List String} {limits : List LimitConsumption}
    (h : evalExcept reply (limitConsumptions config org subscription planId snapshot overrides
      limitKeys) = .ok limits) :
    ∀ lc ∈ limits, ∃ limitKey limitDef,
      LimitFacts reply config org subscription planId snapshot overrides limitKey limitDef lc := by
  induction limitKeys generalizing limits with
  | nil =>
    cases h
    intro lc hlc
    cases hlc
  | cons limitKey limitKeys ih =>
    unfold limitConsumptions at h
    split at h
    · exact ih h
    · rename_i limitDef hdef
      simp only [evalExcept_bind, evalExcept_pure] at h
      obtain ⟨effectiveMax, hmax, h⟩ := bind_eq_ok h
      obtain ⟨rest, hrest, h⟩ := bind_eq_ok h
      intro lc hlc
      cases h
      cases hlc with
      | head => exact ⟨limitKey, limitDef, hdef, hmax, rfl, rfl⟩
      | tail _ hmem => exact ih hrest lc hmem

theorem mem_resolveAllLimitConsumptions {org : ResourceRef} {entitlement planId : String}
    {subscription : Subscription} {overrides : Option TenantOverrides}
    {limits : List LimitConsumption}
    (h : evalExcept reply (resolveAllLimitConsumptions config org entitlement planId subscription
      overrides) = .ok limits) :
    ∀ lc ∈ limits, ∃ snapshot limitKey limitDef,
      evalExcept reply (versionSnapshot config org planId) = .ok snapshot ∧
      LimitFacts reply config org subscription planId snapshot overrides limitKey limitDef lc := by
  intro lc hlc
  unfold resolveAllLimitConsumptions at h
  split at h
  · cases h
    cases hlc
  · rw [evalExcept_bind] at h
    obtain ⟨snapshot, hsnapshot, h⟩ := bind_eq_ok h
    obtain ⟨limitKey, limitDef, hfacts⟩ := mem_limitConsumptions h lc hlc
    exact ⟨snapshot, limitKey, limitDef, hsnapshot, hfacts⟩

theorem isLimit_unique {lc lc' : LimitConsumption} (h : IsLimit reply config lc)
    (h' : IsLimit reply config lc') (hwallet : lc.wallet = lc'.wallet) : lc = lc' := by
  obtain ⟨entitlement, org, entry, limits, hentry, hlimits, hmem⟩ := h
  obtain ⟨entitlement', org', entry', limits', hentry', hlimits', hmem'⟩ := h'
  obtain ⟨snapshot, limitKey, limitDef, hsnapshot, hfacts⟩ :=
    mem_resolveAllLimitConsumptions hlimits lc hmem
  obtain ⟨snapshot', limitKey', limitDef', hsnapshot', hfacts'⟩ :=
    mem_resolveAllLimitConsumptions hlimits' lc' hmem'
  have hentryFacts := (resolveChainEntry_eq_some hentry).2.1
  have hentryFacts' := (resolveChainEntry_eq_some hentry').2.1
  -- the wallet names the org and the limit key
  have hrefs : walletOf entry.org limitKey (limitPeriod config entry.subscription limitDef)
      = walletOf entry'.org limitKey' (limitPeriod config entry'.subscription limitDef') := by
    rw [← hfacts.wallet, ← hfacts'.wallet, hwallet]
  have horg : entry.org = entry'.org := by
    have htype := congrArg WalletRef.resourceType hrefs
    have hid := congrArg WalletRef.resourceId hrefs
    cases entry with
    | mk o _ _ _ =>
      cases entry' with
      | mk o' _ _ _ =>
        cases o
        cases o'
        simp_all [walletOf]
  have hkey : limitKey = limitKey' := congrArg WalletRef.entitlement hrefs
  -- the org has one subscription, one plan, one snapshot and one set of overrides
  have hsubscription : entry.subscription = entry'.subscription := by
    have hsame := hentryFacts.subscription
    rw [horg, hentryFacts'.subscription] at hsame
    injection hsame with hsame
    injection hsame with hsame
    exact hsame.symm
  have hplan : entry.planId = entry'.planId := by
    have hsame := hentryFacts.plan
    rw [horg, hsubscription, hentryFacts'.plan] at hsame
    injection hsame with hsame
    exact hsame.symm
  have hoverrides : entry.overrides = entry'.overrides := by
    have hsame := hentryFacts.overrides
    rw [horg, hentryFacts'.overrides] at hsame
    injection hsame with hsame
    exact hsame.symm
  have hversion : snapshot = snapshot' := by
    rw [horg, hplan, hsnapshot'] at hsnapshot
    injection hsnapshot with hsame
    exact hsame.symm
  have hdef : limitDef = limitDef' := by
    have hsame := hfacts.defined
    rw [hversion, hplan, hkey, hfacts'.defined] at hsame
    injection hsame with hsame
    exact hsame.symm
  have hmax : lc.effectiveMax = lc'.effectiveMax := by
    have hsame := hfacts.effectiveMax
    rw [hdef, hkey, horg, hsubscription, hoverrides, hfacts'.effectiveMax] at hsame
    injection hsame with hsame
    exact hsame.symm
  have hoverage : lc.overage = lc'.overage := by
    rw [hfacts.overage, hfacts'.overage, hdef]
  show (⟨lc.wallet, lc.effectiveMax, lc.overage⟩ : LimitConsumption) = _
  rw [hwallet, hmax, hoverage]

/-! ### The limits of another caller -/

theorem limitConsumptions_caller (userId tenantLevel : Option String) (org : ResourceRef)
    (subscription : Subscription) (planId : String) (snapshot : Option PlanSnapshot)
    (overrides : Option TenantOverrides) (limitKeys : List String) :
    limitConsumptions { config with userId := userId, tenantLevel := tenantLevel } org subscription
        planId snapshot overrides limitKeys
      = limitConsumptions config org subscription planId snapshot overrides limitKeys := by
  induction limitKeys with
  | nil => rfl
  | cons limitKey limitKeys ih =>
    unfold limitConsumptions
    rw [ih]
    rfl

theorem isLimit_caller (userId tenantLevel : Option String) (lc : LimitConsumption) :
    IsLimit reply { config with userId := userId, tenantLevel := tenantLevel } lc
      ↔ IsLimit reply config lc := by
  have hall : ∀ org entitlement planId subscription overrides,
      resolveAllLimitConsumptions { config with userId := userId, tenantLevel := tenantLevel } org
        entitlement planId subscription overrides
        = resolveAllLimitConsumptions config org entitlement planId subscription overrides := by
    intro org entitlement planId subscription overrides
    unfold resolveAllLimitConsumptions
    simp only [limitConsumptions_caller]
    rfl
  unfold IsLimit LevelLimits
  simp only [hall]
  exact Iff.rfl

/-! ### An app with one plan -/

/-- Invites of a team count in its seats. -/
def teamConfig (seats : LimitDef) : AccessContextConfig where
  userId := some "u1"
  accessDef :=
    { hierarchy := ["team"]
      inheritance := .empty
      entitlements := .ofList [("team:invite", ⟨[], none, none⟩)]
      plans := some (.ofList [("pro", ⟨none, some (.ofList [("seats", seats)])⟩)])
      defaultPlan := none
      defaultPlans := none
      planGatedEntitlements := []
      entitlementToLimitKeys := .ofList [("team:invite", ["seats"])] }
  flagStore := false
  subscriptionStore := true
  walletStore := true
  overrideStore := false
  orgResolver := true
  planVersionStore := false
  cloudFailMode := none
  tenantLevel := none
  ancestorResolver := false
  now := 0

/-- One team is on the plan, and every resource is its. -/
def teamReplies : Replies := fun op =>
  match op with
  | .orgResolver _ => .ok (some ⟨"team", "t1"⟩)
  | .getSubscription type id =>
    .ok (if type = "team" ∧ id = "t1" then some ⟨"pro", 0, none, .empty⟩ else none)
  | .getAddOns _ _ => .ok none
  | _ => .error ⟨"unexpected"⟩

def teamWallet : WalletRef := ⟨"team", "t1", "seats", 0⟩

theorem isLimit_team {seats : LimitDef} (hper : seats.per = none) {lc : LimitConsumption}
    (h : IsLimit teamReplies (teamConfig seats) lc) : lc = ⟨teamWallet, seats.max, seats.overage⟩ := by
  obtain ⟨entitlement, org, entry, limits, hentry, hlimits, hmem⟩ := h
  obtain ⟨snapshot, limitKey, limitDef, hsnapshot, hfacts⟩ :=
    mem_resolveAllLimitConsumptions hlimits lc hmem
  have hentryFacts := (resolveChainEntry_eq_some hentry).2.1
  obtain ⟨⟨type, id⟩, subscription, planId, overrides⟩ := entry
  -- only the team has a subscription
  have hsubscription : (if type = "team" ∧ id = "t1" then
      some (⟨"pro", 0, none, .empty⟩ : Subscription) else none) = some subscription :=
    Except.ok.inj hentryFacts.subscription
  split at hsubscription
  · rename_i hteam
    obtain ⟨rfl, rfl⟩ := hteam
    cases hsubscription
    have hplan : some "pro" = some planId := hentryFacts.plan
    cases hplan
    have hoverrides : none = overrides := Except.ok.inj hentryFacts.overrides
    have hsnap : none = snapshot := Except.ok.inj hsnapshot
    subst hoverrides hsnap
    have hdefined : ((Record.empty.insert "seats" seats).get? limitKey) = some limitDef :=
      hfacts.defined
    rw [Record.get?_insert] at hdefined
    split at hdefined
    · rename_i hkey
      cases hdefined
      have hmax : seats.max = lc.effectiveMax := Except.ok.inj hfacts.effectiveMax
      have hwallet : lc.wallet = teamWallet := by
        rw [hfacts.wallet, ← hkey]
        unfold limitPeriod
        rw [hper]
        rfl
      show (⟨lc.wallet, lc.effectiveMax, lc.overage⟩ : LimitConsumption) = _
      rw [hwallet, ← hmax, hfacts.overage]
    · cases hdefined
  · cases hsubscription

end Vertz.Proofs
