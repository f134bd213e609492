import Vertz.Proofs.SetEntries

/-!
# `Vertz.Proofs.SetPlans`: plans and limits of a computed set

What the layers that read the subscription and wallet stores do to an
entry. A tenant is billed alone, or its billing levels are resolved one
after the other:

* `resolveLevels_eval`, `tenantLevels_eval`: features and plan of the
  levels.
* `enrichLimits_eval`: the limits that were collected, group by group, each
  ask for room.
* `applyPlan_eval`, `applyChainPlans_eval`: the conditions of both layers.
-/

namespace Vertz.Proofs

open Vertz.Lib
open Vertz.Server.Auth
open Vertz.Spec List

section Layers

variable {config : ComputeAccessSetConfig} {states : StoreStates}

/-! ### Plans of a tenant -/

/-- The features the set counts at a level. -/
def levelFeatures (config : ComputeAccessSetConfig) (states : StoreStates)
    (entry : AncestorChainEntry) : List String :=
  let resource : ResourceRef := ⟨entry.type, entry.id⟩
  if ((config.accessDef.billingLevels.get? entry.type).getD []).isEmpty then []
  else planFeatures config (levelPlan config entry (states.subscriptions resource))
    ++ addOnFeatures config (states.addOns resource)

theorem levelFeatures_of {entry : AncestorChainEntry}
    (h : ¬ ((config.accessDef.billingLevels.get? entry.type).getD []).isEmpty = true) :
    levelFeatures config states entry
      = planFeatures config (levelPlan config entry (states.subscriptions ⟨entry.type, entry.id⟩))
        ++ addOnFeatures config (states.addOns ⟨entry.type, entry.id⟩) :=
  if_neg h

/-- A level without the type leaves its features alone. -/
theorem get?_addLevel_ne {entry : AncestorChainEntry} {tenantLevel : String}
    (h : entry.type ≠ tenantLevel) (sub : Option Subscription) (addOns : Option (List String))
    (plans : ChainPlans) : (addLevel config entry sub addOns plans).featuresByLevel.get? tenantLevel
      = plans.featuresByLevel.get? tenantLevel := by
  simp only [addLevel]
  split
  · rfl
  · rw [Record.get?_insert, if_neg h]

/-- What the levels come to, by what was known before them. -/
theorem resolveLevels_eval (chain : List AncestorChainEntry) (plans : ChainPlans) :
    ∃ resolved, evalExcept (storeReplies config states) (resolveLevels config chain plans)
        = .ok resolved ∧
      (∀ name, name ∈ resolved.allEffectiveFeatures ↔ name ∈ plans.allEffectiveFeatures ∨
        ∃ entry ∈ chain, name ∈ levelFeatures config states entry) ∧
      (∀ tenantLevel, (∀ entry ∈ chain, entry.type ≠ tenantLevel) →
        resolved.featuresByLevel.get? tenantLevel = plans.featuresByLevel.get? tenantLevel) ∧
      ((∀ entry ∈ chain, entry.depth ≠ 0) → resolved.deepestPlan = plans.deepestPlan) := by
  induction chain generalizing plans with
  | nil => exact ⟨plans, rfl, fun name => by simp, fun _ _ => rfl, fun _ => rfl⟩
  | cons entry chain ih =>
    unfold resolveLevels
    by_cases hempty : ((config.accessDef.billingLevels.get? entry.type).getD []).isEmpty = true
    · obtain ⟨resolved, heval, hall, hlevel, hdeepest⟩ := ih plans
      rw [if_pos hempty]
      refine ⟨resolved, heval, fun name => ?_, fun tenantLevel h => ?_, fun h => ?_⟩
      · have hnone : name ∉ levelFeatures config states entry := by
          simp [levelFeatures, hempty]
        simp [hall, hnone]
      · exact hlevel tenantLevel fun e he => h e (mem_cons_of_mem entry he)
      · exact hdeepest fun e he => h e (mem_cons_of_mem entry he)
    · rw [if_neg hempty]
      simp only [evalExcept_bind, evalExcept_await, storeReplies]
      obtain ⟨resolved, heval, hall, hlevel, hdeepest⟩ := ih (addLevel config entry
        (states.subscriptions ⟨entry.type, entry.id⟩) (states.addOns ⟨entry.type, entry.id⟩) plans)
      refine ⟨resolved, heval, fun name => ?_, fun tenantLevel h => ?_, fun h => ?_⟩
      · rw [hall, exists_mem_cons_iff, levelFeatures_of hempty, ← or_assoc,
          ← mem_append]
        rfl
      · rw [hlevel tenantLevel fun e he => h e (mem_cons_of_mem entry he)]
        exact get?_addLevel_ne (h entry mem_cons_self) _ _ plans
      · rw [hdeepest fun e he => h e (mem_cons_of_mem entry he)]
        exact if_neg (h entry mem_cons_self)

/-- The plan the set counts at the level of the tenant. -/
def deepestPlan (config : ComputeAccessSetConfig) (states : StoreStates)
    (tenantLevel tenantId : String) : Option String :=
  if ((config.accessDef.billingLevels.get? tenantLevel).getD []).isEmpty then none
  else levelPlan config ⟨tenantLevel, tenantId, 0⟩ (states.subscriptions ⟨tenantLevel, tenantId⟩)

/-- A feature counts at every level, or with local resolution at the
deepest. -/
def CountsAt (entDef : EntitlementDef) (entry : AncestorChainEntry) : Prop :=
  entDef.featureResolution.getD .inherit = .local → entry.depth = 0

theorem tenantLevels_eval {tenantLevel tenantId : String}
    (hchain : ChainSettled states tenantLevel tenantId) :
    ∃ plans, evalExcept (storeReplies config states) (resolveLevels config
          (chainOf states tenantLevel tenantId) ⟨.empty, none, [], .empty⟩) = .ok plans ∧
      plans.deepestPlan = deepestPlan config states tenantLevel tenantId ∧
      ∀ name entDef, chainHasFeature plans tenantLevel name entDef = true ↔
        ∃ entry ∈ chainOf states tenantLevel tenantId, CountsAt entDef entry ∧
          name ∈ levelFeatures config states entry := by
  have habove : ∀ entry ∈ sortByDepth (states.ancestors ⟨tenantLevel, tenantId⟩),
      entry.depth ≠ 0 ∧ entry.type ≠ tenantLevel := by
    intro entry hentry
    exact hchain entry (by simpa [sortByDepth] using hentry)
  -- the tenant comes first, and no ancestor overwrites what it gives
  have hfirst : ∃ plans, evalExcept (storeReplies config states) (resolveLevels config
        (chainOf states tenantLevel tenantId) ⟨.empty, none, [], .empty⟩)
        = evalExcept (storeReplies config states) (resolveLevels config
          (sortByDepth (states.ancestors ⟨tenantLevel, tenantId⟩)) plans) ∧
      plans.deepestPlan = deepestPlan config states tenantLevel tenantId ∧
      plans.allEffectiveFeatures = levelFeatures config states ⟨tenantLevel, tenantId, 0⟩ ∧
      (plans.featuresByLevel.get? tenantLevel).getD []
        = levelFeatures config states ⟨tenantLevel, tenantId, 0⟩ := by
    unfold chainOf deepestPlan levelFeatures
    rw [resolveLevels]
    by_cases hempty : ((config.accessDef.billingLevels.get? tenantLevel).getD []).isEmpty = true
    · simp only [if_pos hempty]
      exact ⟨_, rfl, rfl, rfl, rfl⟩
    · simp only [if_neg hempty]
      refine ⟨addLevel config ⟨tenantLevel, tenantId, 0⟩
        (states.subscriptions ⟨tenantLevel, tenantId⟩) (states.addOns ⟨tenantLevel, tenantId⟩)
        ⟨.empty, none, [], .empty⟩, rfl, rfl, nil_append _, ?_⟩
      simp only [addLevel]
      split
      · next hnone => exact (isEmpty_iff.mp hnone).symm
      · rw [Record.get?_insert_self]
        rfl
  obtain ⟨first, heq, hdeepest₀, hall₀, hlevel₀⟩ := hfirst
  obtain ⟨plans, heval, hall, hlevel, hdeepest⟩ := @resolveLevels_eval config states
    (sortByDepth (states.ancestors ⟨tenantLevel, tenantId⟩)) first
  refine ⟨plans, heq.trans heval, (hdeepest fun e he => (habove e he).1).trans hdeepest₀,
    fun name entDef => ?_⟩
  unfold chainHasFeature CountsAt
  cases entDef.featureResolution.getD .inherit with
  | inherit => simp [hall, hall₀, chainOf]
  | «local» =>
    rw [contains_iff_mem, hlevel tenantLevel fun e he => (habove e he).2, hlevel₀]
    constructor
    · intro h
      exact ⟨_, mem_cons_self, fun _ => rfl, h⟩
    · intro h
      obtain ⟨entry, hentry, hdepth, hname⟩ := h
      rcases mem_cons.mp hentry with rfl | hentry
      · exact hname
      · exact absurd (hdepth rfl) (habove entry hentry).1

/-! ### Limits of a tenant -/

/-- What is consumed under a limit. -/
def consumedOf (states : StoreStates) (resource : ResourceRef) (pending : PendingLimit) : ℚ :=
  states.wallets.getConsumption (walletOf resource pending.limitKey pending.period)

theorem getBatchConsumption_eval (resource : ResourceRef) (period : Period)
    (limitKeys : List String) (result : Record ℚ) :
    ∃ consumptionMap, evalExcept (storeReplies config states)
        (getBatchConsumption resource period limitKeys result) = .ok consumptionMap ∧
      ∀ key, consumptionMap.get? key
        = if key ∈ limitKeys then some (states.wallets.getConsumption (walletOf resource key period))
          else result.get? key := by
  induction limitKeys generalizing result with
  | nil => exact ⟨result, rfl, fun key => rfl⟩
  | cons first limitKeys ih =>
    obtain ⟨consumptionMap, heval, hget⟩ :=
      ih (result.insert first (states.wallets.getConsumption (walletOf resource first period)))
    refine ⟨consumptionMap, ?_, fun key => ?_⟩
    · unfold getBatchConsumption
      exact heval
    · rw [hget, Record.get?_insert]
      by_cases hfirst : first = key
      · subst hfirst
        simp
      · have hne : ¬ key = first := fun h => hfirst h.symm
        simp [hfirst, hne]

theorem enrichGroups_eval (resource : ResourceRef) {name : String}
    {groups : List (Period × List PendingLimit)} {entitlements : Record AccessCheckData}
    {p : Prop} (h : EntryIs entitlements name p)
    (hperiod : ∀ group ∈ groups, ∀ pending ∈ group.2, pending.period = group.1) :
    ∃ enriched, evalExcept (storeReplies config states)
        (enrichGroups resource groups entitlements) = .ok enriched ∧
      EntryIs enriched name (p ∧ ∀ group ∈ groups, ∀ pending ∈ group.2,
        pending.entitlementName = name →
          consumedOf states resource pending < pending.effectiveMax) := by
  induction groups generalizing entitlements p with
  | nil => exact ⟨entitlements, rfl, h.congr (by simp)⟩
  | cons group groups ih =>
    obtain ⟨period, entries⟩ := group
    obtain ⟨consumptionMap, hmap, hget⟩ := @getBatchConsumption_eval config states resource
      period (entries.map (·.limitKey)) .empty
    have hentries : ∀ pending ∈ entries, pending.entitlementName = name → ∀ entry,
        (enrichEntry pending ((consumptionMap.get? pending.limitKey).getD 0) entry).allowed = true
          ↔ entry.allowed = true ∧
            consumedOf states resource pending < pending.effectiveMax := by
      intro pending hmem _ entry
      have hkey : pending.limitKey ∈ entries.map (·.limitKey) := mem_map_of_mem hmem
      rw [allowed_enrichEntry, hget, if_pos hkey, Option.getD_some, consumedOf,
        hperiod _ mem_cons_self pending hmem]
    obtain ⟨enriched, heval, hentry⟩ := ih (h.foldl hentries)
      fun group hgroup => hperiod group (mem_cons_of_mem _ hgroup)
    refine ⟨enriched, ?_, hentry.congr ?_⟩
    · unfold enrichGroups
      rw [evalExcept_bind, hmap]
      exact heval
    · rw [forall_mem_cons, and_assoc]

theorem mem_addToGroup {pending : PendingLimit} {groups : List (Period × List PendingLimit)}
    (hperiod : ∀ group ∈ groups, ∀ p ∈ group.2, p.period = group.1) :
    (∀ group ∈ addToGroup pending groups, ∀ p ∈ group.2, p.period = group.1) ∧
      ∀ p, (∃ group ∈ addToGroup pending groups, p ∈ group.2) ↔
        p = pending ∨ ∃ group ∈ groups, p ∈ group.2 := by
  induction groups with
  | nil => simp [addToGroup]
  | cons group groups ih =>
    obtain ⟨period, entries⟩ := group
    rw [forall_mem_cons] at hperiod
    rw [addToGroup]
    split
    · next hsame =>
        refine ⟨?_, fun p => ?_⟩
        · rw [forall_mem_cons]
          refine ⟨fun p hp => ?_, hperiod.2⟩
          rcases mem_append.mp hp with hp | hp
          · exact hperiod.1 p hp
          · rw [mem_singleton.mp hp]
            exact hsame.symm
        · rw [exists_mem_cons_iff, exists_mem_cons_iff, mem_append,
            mem_singleton]
          tauto
    · obtain ⟨hall, hmem⟩ := ih hperiod.2
      refine ⟨?_, fun p => ?_⟩
      · rw [forall_mem_cons]
        exact ⟨hperiod.1, hall⟩
      · rw [exists_mem_cons_iff, exists_mem_cons_iff, hmem]
        tauto

theorem groupByPeriod_spec (pendingLimits : List PendingLimit) :
    (∀ group ∈ groupByPeriod pendingLimits, ∀ p ∈ group.2, p.period = group.1) ∧
      ∀ p, (∃ group ∈ groupByPeriod pendingLimits, p ∈ group.2) ↔ p ∈ pendingLimits := by
  have hfold : ∀ (pendingLimits : List PendingLimit) (groups : List (Period × List PendingLimit)),
      (∀ group ∈ groups, ∀ p ∈ group.2, p.period = group.1) →
      (∀ group ∈ pendingLimits.foldl (fun groups pending => addToGroup pending groups) groups,
        ∀ p ∈ group.2, p.period = group.1) ∧
      ∀ p, (∃ group ∈ pendingLimits.foldl (fun groups pending => addToGroup pending groups) groups,
        p ∈ group.2) ↔ p ∈ pendingLimits ∨ ∃ group ∈ groups, p ∈ group.2 := by
    intro pendingLimits
    induction pendingLimits with
    | nil => exact fun groups hperiod => ⟨hperiod, fun p => by simp⟩
    | cons pending pendingLimits ih =>
      intro groups hperiod
      obtain ⟨hall, hmem⟩ := @mem_addToGroup pending groups hperiod
      obtain ⟨hall', hmem'⟩ := ih _ hall
      refine ⟨hall', fun p => ?_⟩
      rw [foldl_cons, hmem', hmem, mem_cons]
      tauto
  obtain ⟨hall, hmem⟩ := hfold pendingLimits [] (by simp)
  exact ⟨hall, fun p => (hmem p).trans (by simp)⟩

theorem enrichLimits_eval (resource : ResourceRef) {name : String}
    {pendingLimits : List PendingLimit} {entitlements : Record AccessCheckData} {p : Prop}
    (h : EntryIs entitlements name p) :
    ∃ enriched, evalExcept (storeReplies config states)
        (enrichLimitsFromBatch pendingLimits entitlements resource) = .ok enriched ∧
      EntryIs enriched name (p ∧ ∀ pending ∈ pendingLimits, pending.entitlementName = name →
        consumedOf states resource pending < pending.effectiveMax) := by
  obtain ⟨hperiod, hmem⟩ := groupByPeriod_spec pendingLimits
  obtain ⟨enriched, heval, hentry⟩ := @enrichGroups_eval config states resource
    name _ _ _ h hperiod
  refine ⟨enriched, heval, hentry.congr (and_congr_right fun _ => ?_)⟩
  constructor
  · intro hall pending hpending
    obtain ⟨group, hgroup, hin⟩ := (hmem pending).mpr hpending
    exact hall group hgroup pending hin
  · intro hall group hgroup pending hin
    exact hall pending ((hmem pending).mp ⟨group, hgroup, hin⟩)

section Loop

variable {step : Record AccessCheckData × List PendingLimit → String →
  Record AccessCheckData × List PendingLimit}

/-- A loop over names that adds a condition to the entry of its name. -/
theorem foldl_entries {name : String} {q : Prop}
    (hstep : ∀ state n p, EntryIs state.1 name p →
      EntryIs (step state n).1 name (p ∧ (n = name → q)))
    (names : List String) (state : Record AccessCheckData × List PendingLimit) {p : Prop}
    (h : EntryIs state.1 name p) :
    EntryIs (names.foldl step state).1 name (p ∧ (name ∈ names → q)) := by
  induction names generalizing state p with
  | nil => exact h.congr (by simp)
  | cons n names ih =>
    refine (ih _ (hstep state n p h)).congr ?_
    rw [mem_cons, and_assoc, or_imp, @eq_comm _ name n]

/-- A loop over names that collects limits. -/
theorem foldl_limits {limit : String → Option PendingLimit}
    (hstep : ∀ state n pending, pending ∈ (step state n).2 ↔
      pending ∈ state.2 ∨ limit n = some pending)
    (names : List String) (state : Record AccessCheckData × List PendingLimit)
    (pending : PendingLimit) : pending ∈ (names.foldl step state).2 ↔
      pending ∈ state.2 ∨ ∃ n ∈ names, limit n = some pending := by
  induction names generalizing state with
  | nil => simp
  | cons n names ih =>
    rw [foldl_cons, ih, hstep, exists_mem_cons_iff, or_assoc]

end Loop

theorem entitlementName_limitOf {source : LimitSource} {name : String} {pending : PendingLimit}
    (h : limitOf config source name = some pending) : pending.entitlementName = name := by
  unfold limitOf at h
  split at h
  · cases h
  · split at h
    · cases h
    · cases h
      rfl

theorem EntryIs.collectLimit {source : LimitSource} {name n : String}
    {state : Record AccessCheckData × List PendingLimit} {p : Prop}
    (h : EntryIs state.1 name p) : EntryIs (collectLimit config source n state).1 name p := by
  unfold Vertz.Server.Auth.collectLimit
  split
  · exact h
  · next pending _ =>
      split
      · have hset := @EntryIs.modify state.1 name n p True
          (·.setLimit ⟨pending.limitKey, -1, 0, some (-1), false⟩) h fun _ entry => by simp
        exact hset.congr (by simp)
      · exact h

theorem mem_collectLimit {source : LimitSource} {n : String}
    {state : Record AccessCheckData × List PendingLimit} {pending : PendingLimit} :
    pending ∈ (collectLimit config source n state).2 ↔ pending ∈ state.2 ∨
      (limitOf config source n).filter (·.effectiveMax ≠ -1) = some pending := by
  unfold collectLimit
  split
  · next hnone => simp [hnone]
  · next found hsome =>
      split
      · next hunlimited =>
          rw [hsome, Option.filter_some]
          simp [hunlimited]
      · next hlimited =>
          rw [hsome, Option.filter_some]
          simp [hlimited, eq_comm]

/-- There is room under the limit of the entitlement, if it has one. -/
def LimitFree (config : ComputeAccessSetConfig) (states : StoreStates) (resource : ResourceRef)
    (source : LimitSource) (name : String) : Prop :=
  ∀ pending, limitOf config source name = some pending → pending.effectiveMax ≠ -1 →
    consumedOf states resource pending < pending.effectiveMax

/-- The limits collected from a loop over the entitlements, once enriched,
ask for room under the limit of each. -/
theorem enrichCollected_eval (resource : ResourceRef) (source : LimitSource) {name : String}
    {names : List String} {pendingLimits : List PendingLimit}
    {entitlements : Record AccessCheckData} {p : Prop} (h : EntryIs entitlements name p)
    (hname : name ∈ names)
    (hmem : ∀ pending, pending ∈ pendingLimits ↔ ∃ n ∈ names,
      (limitOf config source n).filter (·.effectiveMax ≠ -1) = some pending) :
    ∃ enriched, evalExcept (storeReplies config states)
        (enrichLimitsFromBatch pendingLimits entitlements resource) = .ok enriched ∧
      EntryIs enriched name (p ∧ LimitFree config states resource source name) := by
  obtain ⟨enriched, heval, hentry⟩ := @enrichLimits_eval config states resource name
    pendingLimits entitlements p h
  refine ⟨enriched, heval, hentry.congr (and_congr_right fun _ => ?_)⟩
  constructor
  · intro hall pending hlimit hlimited
    refine hall pending ((hmem pending).mpr ⟨name, hname, ?_⟩) (entitlementName_limitOf hlimit)
    simpa [hlimit] using hlimited
  · intro hfree pending hpending hpendingName
    obtain ⟨n, -, hlimit⟩ := (hmem pending).mp hpending
    obtain ⟨hlimit, hlimited⟩ := Option.filter_eq_some_iff.mp hlimit
    have hn : n = name := (entitlementName_limitOf hlimit).symm.trans hpendingName
    subst hn
    exact hfree pending hlimit (by simpa using hlimited)

/-- The subscription and the plan of a tenant that is billed alone. -/
def subscribed (config : ComputeAccessSetConfig) (states : StoreStates) (tenant : ResourceRef) :
    Option (Subscription × PlanDef) :=
  (states.subscriptions tenant).bind fun sub =>
    ((present (resolveEffectivePlan (some sub) config.accessDef.plans
      config.accessDef.defaultPlan config.now)).bind config.accessDef.plan?).map fun planDef =>
        (sub, planDef)

/-- Plan and limits allow the entitlement. -/
def PlanAllows (config : ComputeAccessSetConfig) (states : StoreStates) (tenant : ResourceRef)
    (name : String) (sub : Subscription) (planDef : PlanDef) : Prop :=
  (name ∈ config.accessDef.planGatedEntitlements →
    name ∈ planDef.features.getD [] ++ addOnFeatures config (states.addOns tenant)) ∧
  (config.walletStore = true → LimitFree config states tenant
    ⟨planDef, states.addOns tenant, some sub.overrides, sub.startedAt⟩ name)

theorem EntryIs.planEntitlement {features : List String} {source : LimitSource}
    {name n : String} {state : Record AccessCheckData × List PendingLimit} {p : Prop}
    (h : EntryIs state.1 name p) :
    EntryIs (planEntitlement config features source state n).1 name (p ∧ (n = name →
      name ∈ config.accessDef.planGatedEntitlements → name ∈ features)) := by
  have hdeny : n = name → ∀ entry,
      (denyUnplanned config (features.contains n) n entry).allowed = true ↔ entry.allowed = true ∧
        (name ∈ config.accessDef.planGatedEntitlements → name ∈ features) := by
    intro hn entry
    rw [allowed_denyUnplanned, contains_iff_mem, hn]
  have hdenied := h.modify hdeny
  unfold Vertz.Server.Auth.planEntitlement
  split
  · exact EntryIs.collectLimit hdenied
  · exact hdenied

theorem mem_planEntitlement {features : List String} {source : LimitSource} {n : String}
    {state : Record AccessCheckData × List PendingLimit} {pending : PendingLimit}
    (hwallet : config.walletStore = true) :
    pending ∈ (planEntitlement config features source state n).2 ↔ pending ∈ state.2 ∨
      (limitOf config source n).filter (·.effectiveMax ≠ -1) = some pending := by
  unfold planEntitlement
  rw [if_pos hwallet]
  exact mem_collectLimit

theorem applyPlanDef_eval {tenant : ResourceRef} {name : String} {sub : Subscription}
    {planDef : PlanDef} {entitlements : Record AccessCheckData} {p : Prop}
    (h : EntryIs entitlements name p) (hname : name ∈ config.accessDef.entitlements.keys) :
    ∃ planned, evalExcept (storeReplies config states)
        (applyPlanDef config tenant sub planDef (states.addOns tenant) entitlements)
        = .ok planned ∧
      EntryIs planned name (p ∧ PlanAllows config states tenant name sub planDef) := by
  unfold applyPlanDef PlanAllows
  have hloop := foldl_entries (fun state n p => @EntryIs.planEntitlement config
    (planDef.features.getD [] ++ addOnFeatures config (states.addOns tenant))
    ⟨planDef, states.addOns tenant, some sub.overrides, sub.startedAt⟩ name n state p)
    config.accessDef.entitlements.keys (entitlements, []) h
  by_cases hwallet : config.walletStore = true
  · have hmem := foldl_limits (fun state n pending => @mem_planEntitlement config
      (planDef.features.getD [] ++ addOnFeatures config (states.addOns tenant))
      ⟨planDef, states.addOns tenant, some sub.overrides, sub.startedAt⟩ n state pending hwallet)
      config.accessDef.entitlements.keys (entitlements, [])
    obtain ⟨enriched, heval, hentry⟩ := @enrichCollected_eval config states tenant
      ⟨planDef, states.addOns tenant, some sub.overrides, sub.startedAt⟩ name _ _ _ _ hloop hname
      fun pending => (hmem pending).trans (by simp)
    simp only [hwallet, if_true]
    exact ⟨enriched, heval, hentry.congr (by simp [hname, and_assoc])⟩
  · simp only [hwallet]
    exact ⟨_, rfl, hloop.congr (by simp [hname])⟩

theorem applyPlan_eval {tenant : ResourceRef} {name : String}
    {entitlements : Record AccessCheckData} {p : Prop} (h : EntryIs entitlements name p)
    (hname : name ∈ config.accessDef.entitlements.keys) :
    ∃ plan plans planned, evalExcept (storeReplies config states)
        (applyPlan config tenant entitlements) = .ok (plan, plans, planned) ∧
      EntryIs planned name (p ∧ ∀ sub planDef, subscribed config states tenant
        = some (sub, planDef) → PlanAllows config states tenant name sub planDef) := by
  show ∃ plan plans planned, evalExcept (storeReplies config states)
    (applySubscription config tenant entitlements (states.subscriptions tenant)) = _ ∧ _
  unfold applySubscription
  cases hsub : states.subscriptions tenant with
  | none =>
    have hnone : subscribed config states tenant = none := by simp [subscribed, hsub]
    exact ⟨none, .empty, entitlements, rfl, h.congr (by simp [hnone])⟩
  | some sub =>
    cases hplan : (present (resolveEffectivePlan (some sub) config.accessDef.plans
        config.accessDef.defaultPlan config.now)).bind config.accessDef.plan? with
    | none =>
      have hnone : subscribed config states tenant = none := by
        simp only [subscribed, hsub, Option.bind_some, hplan, Option.map_none]
      refine ⟨resolveEffectivePlan (some sub) config.accessDef.plans
        config.accessDef.defaultPlan config.now, .empty, entitlements, ?_,
        h.congr (by simp [hnone])⟩
      simp only [hplan]
      rfl
    | some planDef =>
      have hsome : subscribed config states tenant = some (sub, planDef) := by
        simp only [subscribed, hsub, Option.bind_some, hplan, Option.map_some]
      obtain ⟨planned, heval, hentry⟩ := @applyPlanDef_eval config states tenant name sub
        planDef entitlements p h hname
      refine ⟨resolveEffectivePlan (some sub) config.accessDef.plans
        config.accessDef.defaultPlan config.now, .empty, planned, ?_,
        hentry.congr (by simp [hsome])⟩
      simp only [hplan]
      show evalExcept (storeReplies config states) (applyPlanDef config tenant sub planDef
        (states.addOns tenant) entitlements >>= fun planned => pure (_, _, planned)) = _
      rw [evalExcept_bind, heval]
      rfl

/-- The plan that counts at the level of the tenant, and its limits. -/
def deepestSource (states : StoreStates) (tenant : ResourceRef)
    (planDef : PlanDef) : LimitSource where
  planDef := planDef
  addOns := states.addOns tenant
  overrides := (states.subscriptions tenant).map (·.overrides)
  periodAnchor := ((states.subscriptions tenant).map (·.startedAt)).getD 0

theorem applyDeepest_eval {tenant : ResourceRef} {name : String} {deepestPlan : Option String}
    {entitlements : Record AccessCheckData} {p : Prop} (h : EntryIs entitlements name p)
    (hname : name ∈ config.accessDef.entitlements.keys) :
    ∃ enriched, evalExcept (storeReplies config states)
        (applyDeepest config tenant deepestPlan entitlements) = .ok enriched ∧
      EntryIs enriched name (p ∧ (config.walletStore = true → ∀ planDef,
        (present deepestPlan).bind config.accessDef.plan? = some planDef →
          LimitFree config states tenant (deepestSource states tenant planDef) name)) := by
  unfold applyDeepest
  cases hwallet : config.walletStore with
  | false => exact ⟨entitlements, rfl, h.congr (by simp)⟩
  | true =>
    cases hdeepest : present deepestPlan with
    | none => exact ⟨entitlements, rfl, h.congr (by simp)⟩
    | some planId =>
      cases hplan : config.accessDef.plan? planId with
      | none =>
        refine ⟨entitlements, ?_, h.congr (by simp [hplan])⟩
        simp only [hplan]
        rfl
      | some planDef =>
        have hmem := foldl_limits (fun state n pending => @mem_collectLimit config
          (deepestSource states tenant planDef) n state pending)
          config.accessDef.entitlements.keys (entitlements, [])
        have hloop := @foldl_entries (fun state n =>
          collectLimit config (deepestSource states tenant planDef) n state) name True
          (fun state n p hentry => hentry.collectLimit.congr (by simp))
          config.accessDef.entitlements.keys (entitlements, []) p h
        obtain ⟨enriched, heval, hentry⟩ := @enrichCollected_eval config states tenant
          (deepestSource states tenant planDef) name _ _ _ _ hloop hname
          fun pending => (hmem pending).trans (by simp)
        refine ⟨enriched, ?_, hentry.congr (by simp [hplan])⟩
        simp only [hplan]
        exact heval

/-- A tenant with billing levels: its features and the limits of its own
plan. -/
theorem applyChainPlans_eval {tenantLevel tenantId name : String} {entDef : EntitlementDef}
    {entitlements : Record AccessCheckData} {p : Prop} (h : EntryIs entitlements name p)
    (hent : config.accessDef.entitlements.get? name = some entDef) :
    ∃ resolved plan plans planned, evalExcept (storeReplies config states) (resolveLevels config
        (chainOf states tenantLevel tenantId) ⟨.empty, none, [], .empty⟩) = .ok resolved ∧
      evalExcept (storeReplies config states)
        (applyChainPlans config tenantLevel tenantId entitlements) = .ok (plan, plans, planned) ∧
      EntryIs planned name ((p ∧ (name ∈ config.accessDef.planGatedEntitlements →
          chainHasFeature resolved tenantLevel name entDef = true)) ∧
        (config.walletStore = true → ∀ planDef,
          (present resolved.deepestPlan).bind config.accessDef.plan? = some planDef →
            LimitFree config states ⟨tenantLevel, tenantId⟩
              (deepestSource states ⟨tenantLevel, tenantId⟩ planDef) name)) := by
  obtain ⟨resolved, hresolved, -⟩ := @resolveLevels_eval config states
    (chainOf states tenantLevel tenantId) ⟨.empty, none, [], .empty⟩
  have hplanned := @EntryIs.updateEach config.accessDef (fun name entDef => denyUnplanned config
    (chainHasFeature resolved tenantLevel name entDef) name) name entDef entitlements p _ h hent
    allowed_denyUnplanned
  have hname : name ∈ config.accessDef.entitlements.keys := by
    rw [Record.mem_keys_iff, hent]
    rfl
  obtain ⟨enriched, heval, hentry⟩ := @applyDeepest_eval config states
    ⟨tenantLevel, tenantId⟩ name resolved.deepestPlan _ _ hplanned hname
  refine ⟨resolved, resolved.deepestPlan, resolved.resolvedPlans, enriched, hresolved, ?_, hentry⟩
  unfold applyChainPlans
  simp only [evalExcept_bind, tenantChain_eval, ok_bind, hresolved, heval]
  rfl

end Layers

end Vertz.Proofs
