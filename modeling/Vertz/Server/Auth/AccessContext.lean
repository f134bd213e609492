import Mathlib.Data.List.Sort
import Vertz.Server.Auth.WalletStore

/-!
# `Vertz.Server.Auth.AccessContext`: `can`, `check`, `canAndConsume` and `unconsume`

An access context decides an entitlement in layers: feature flags, roles,
plan features and limits. `can` stops at the first layer that denies,
`check` runs all of them and lists the reasons, and `canAndConsume` also
counts an amount in the wallet of every limit, at every billing level of
the resource.

Awaits are calls of `stores`, so whatever happens between two of them,
and whatever call fails, is up to who runs the program.
-/

namespace Vertz.Server.Auth

open Vertz.Lib

inductive CloudFailMode where
  | closed
  | open
  | cached
  deriving DecidableEq, Repr

/-- The configuration of a context. For a store that may be left out the
field says whether it is there; `now` is the time read off the clock. -/
structure AccessContextConfig where
  userId : Option String
  accessDef : AccessDefinition
  flagStore : Bool
  subscriptionStore : Bool
  walletStore : Bool
  overrideStore : Bool
  orgResolver : Bool
  planVersionStore : Bool
  cloudFailMode : Option CloudFailMode
  tenantLevel : Option String
  ancestorResolver : Bool
  now : ℤ

/-- The type an entitlement is about, before the colon. -/
def entitlementEntity (entitlement : String) : String :=
  if ':' ∈ entitlement.toList then String.ofList (entitlement.toList.takeWhile (· ≠ ':')) else ""

variable (config : AccessContextConfig)

/-! ### Shared resolution -/

/-- Awaited only when the store is there. -/
def overridesOf (type id : String) : StoreM (Option TenantOverrides) :=
  if config.overrideStore then await (.getOverrides type id) else pure none

def sortByDepth (ancestors : List AncestorChainEntry) : List AncestorChainEntry :=
  ancestors.insertionSort (·.depth ≤ ·.depth)

/-- The resource and its ancestors, from child to root; `none` without
billing levels. -/
def resolveAncestorChain (org : ResourceRef) : StoreM (Option (List AncestorChainEntry)) :=
  match config.ancestorResolver, present config.tenantLevel with
  | true, some tenantLevel => do
      let ancestors ← await (.ancestorResolver tenantLevel org.id)
      return some (⟨org.type, org.id, 0⟩ :: sortByDepth ancestors)
  | _, _ => return none

/-- The deepest level that has the flag decides. -/
def resolveMultiLevelFlag (flag : String) : List AncestorChainEntry → StoreM Bool
  | [] => return false
  | entry :: chain => do
      let levelFlags ← await (.getFlags entry.type entry.id)
      match levelFlags.get? flag with
      | some enabled => return enabled
      | none => resolveMultiLevelFlag flag chain

/-- The snapshot of the plan version the tenant is on. -/
def versionSnapshot (org : ResourceRef) (planId : String) : StoreM (Option PlanSnapshot) :=
  if config.planVersionStore then do
    match ← await (.getTenantVersion org.type org.id planId) with
    | some tenantVersion => await (.getVersion planId tenantVersion)
    | none => return none
  else return none

/-- Whether an add-on of the tenant has the entitlement as a feature. -/
def addOnsInclude (org : ResourceRef) (entitlement : String) : StoreM Bool := do
  match ← await (.getAddOns org.type org.id) with
  | some addOns =>
    return addOns.any fun addOnId =>
      match config.accessDef.plan? addOnId with
      | some addOn => featuresInclude addOn.features entitlement
      | none => false
  | none => return false

/-- Whether the entitlement is in the features of the plan, of an add-on
or of the overrides. A version snapshot stands in for the plan. -/
def resolveEffectiveFeatures (org : ResourceRef) (entitlement effectivePlanId : String)
    (overrides : Option TenantOverrides) : StoreM Bool := do
  let planFeatures ←
    match ← versionSnapshot config org effectivePlanId with
    | some snapshot => pure (some snapshot.features)
    | none => pure ((config.accessDef.plan? effectivePlanId).bind PlanDef.features)
  if featuresInclude planFeatures entitlement then return true
  if ← addOnsInclude config org entitlement then return true
  return featuresInclude (overrides.bind TenantOverrides.features) entitlement

/-- Whether a level of the chain has the feature; with `local` resolution
only the deepest one counts. -/
def resolveMultiLevelFeature (entitlement : String) : List AncestorChainEntry → StoreM Bool
  | [] => return false
  | entry :: chain => do
      let resolution := ((config.accessDef.entitlements.get? entitlement).bind
        EntitlementDef.featureResolution).getD .inherit
      if resolution = .local ∧ entry.depth ≠ 0 then resolveMultiLevelFeature entitlement chain
      else
        let subscription ← await (.getSubscription entry.type entry.id)
        match present (resolveEffectivePlan subscription config.accessDef.plans
          (config.accessDef.levelDefault entry.type) config.now) with
        | none => resolveMultiLevelFeature entitlement chain
        | some planId =>
          let overrides ← overridesOf config entry.type entry.id
          if ← resolveEffectiveFeatures config ⟨entry.type, entry.id⟩ entitlement planId
            overrides then return true
          else resolveMultiLevelFeature entitlement chain

/-! ### Layers 1 to 3 -/

/-- Layer 1: every flag of the entitlement is on. -/
def checkFlags (entDef : EntitlementDef) (resolvedOrg : Option ResourceRef)
    (chain : Option (List AncestorChainEntry)) : StoreM Bool :=
  match entDef.flags.getD [], config.flagStore && config.orgResolver with
  | flag :: flags, true =>
    match resolvedOrg, chain with
    | none, _ => return false
    | some _, some chain => (flag :: flags).allM (resolveMultiLevelFlag · chain)
    | some org, none => (flag :: flags).allM fun flag => await (.getFlag org.type org.id flag)
  | _, _ => return true

/-- Layer 2: the user's role on the resource, or the role it gives on the
type of the entitlement, is one of its roles. -/
def checkRoles (userId : String) (entDef : EntitlementDef) (entitlement : String)
    (resource : Option ResourceRef) : StoreM Bool :=
  match entDef.roles, resource with
  | [], _ => return true
  | _ :: _, none => return false
  | _ :: _, some resource => do
      match present (← await (.getEffectiveRole userId resource.type resource.id)) with
      | none => return false
      | some effectiveRole =>
        if resource.type ≠ entitlementEntity entitlement then
          match present (resolveInheritedRole resource.type effectiveRole
            (entitlementEntity entitlement) config.accessDef) with
          | none => return false
          | some inherited => return entDef.roles.contains inherited
        else return entDef.roles.contains effectiveRole

/-- Layer 3: the plan has the entitlement, where plans gate it. -/
def checkPlan (entitlement : String) (resolvedOrg : Option ResourceRef)
    (overrides : Option TenantOverrides) (chain : Option (List AncestorChainEntry)) :
    StoreM Bool :=
  if config.accessDef.planGatedEntitlements.contains entitlement && config.subscriptionStore
    && config.orgResolver then
    match resolvedOrg, chain with
    | none, _ => return false
    | some _, some chain => resolveMultiLevelFeature config entitlement chain
    | some org, none => do
        let subscription ← await (.getSubscription org.type org.id)
        match present (resolveEffectivePlan subscription config.accessDef.plans
          config.accessDef.defaultPlan config.now) with
        | none => return false
        | some planId => resolveEffectiveFeatures config org entitlement planId overrides
  else return true

def checkLayers1to3 (entitlement : String) (resource resolvedOrg : Option ResourceRef)
    (overrides : Option TenantOverrides) (chain : Option (List AncestorChainEntry)) :
    StoreM Bool :=
  match present config.userId, config.accessDef.entitlements.get? entitlement with
  | some userId, some entDef => do
      if !(← checkFlags config entDef resolvedOrg chain) then return false
      if !(← checkRoles config userId entDef entitlement resource) then return false
      checkPlan config entitlement resolvedOrg overrides chain
  | _, _ => return false

/-! ### Limits -/

/-- The result of a JavaScript division. -/
inductive Cost where
  | number (value : ℚ)
  | infinity
  | negInfinity
  | nan
  deriving DecidableEq

/-- What units past a limit cost. -/
def overageCost (overage : OverageConfig) (overageUnits : ℚ) : Cost :=
  let price := overageUnits * overage.amount
  if overage.per ≠ 0 then .number (price / overage.per)
  else if price > 0 then .infinity
  else if price < 0 then .negInfinity
  else .nan

/-- `cost >= cap` -/
def Cost.ge : Cost → ℚ → Bool
  | .number value, cap => decide (value ≥ cap)
  | .infinity, _ => true
  | .negInfinity, _ => false
  | .nan, _ => false

/-- `cost > cap` -/
def Cost.gt : Cost → ℚ → Bool
  | .number value, cap => decide (value > cap)
  | .infinity, _ => true
  | .negInfinity, _ => false
  | .nan, _ => false

/-- Add what the add-ons allow, up to one that finds the limit unlimited. -/
def addAddOns (accessDef : AccessDefinition) (limitKey : String) : List String → ℚ → ℚ
  | [], effectiveMax => effectiveMax
  | addOnId :: addOns, effectiveMax =>
    match (accessDef.plan? addOnId).bind (·.limit? limitKey) with
    | none => addAddOns accessDef limitKey addOns effectiveMax
    | some addOnLimit =>
      if effectiveMax = -1 then effectiveMax
      else addAddOns accessDef limitKey addOns (effectiveMax + addOnLimit.max)

/-- The overrides of a limit: those of the subscription raise it, those of
the override store replace it or add to it. -/
def applyLimitOverrides (limitKey : String) (subscription : Subscription)
    (overrides : Option TenantOverrides) (effectiveMax : ℚ) : ℚ :=
  let raised := match subscription.overrides.get? limitKey with
    | some oldMax => max effectiveMax oldMax
    | none => effectiveMax
  match ((overrides.bind TenantOverrides.limits).bind (·.get? limitKey)) with
  | none => raised
  | some limitOverride =>
    match limitOverride.max, limitOverride.add with
    | some hardCap, _ => hardCap
    | none, some add => if raised = -1 then raised else max 0 (raised + add)
    | none, none => raised

def computeEffectiveLimit (basePlanMax : ℚ) (limitKey : String) (org : ResourceRef)
    (subscription : Subscription) (overrides : Option TenantOverrides) : StoreM ℚ := do
  let addOns ← await (.getAddOns org.type org.id)
  return applyLimitOverrides limitKey subscription overrides
    (addAddOns config.accessDef limitKey (addOns.getD []) basePlanMax)

/-- The limit in the version snapshot, or else in the plan. -/
def limitDefOf (snapshot : Option PlanSnapshot) (planId limitKey : String) : Option LimitDef :=
  match snapshot.bind (·.limits.get? limitKey) with
  | some versioned => versioned
  | none => (config.accessDef.plan? planId).bind (·.limit? limitKey)

def endOfTime : ℤ := 253402300799000

/-- The period a limit is counted in. -/
def limitPeriod (subscription : Subscription) (limitDef : LimitDef) : Period :=
  match limitDef.per with
  | some per => calculateBillingPeriod subscription.startedAt per config.now
  | none => ⟨subscription.startedAt, endOfTime⟩

def walletOf (org : ResourceRef) (limitKey : String) (period : Period) : WalletRef :=
  ⟨org.type, org.id, limitKey, period.periodStart⟩

structure LimitState where
  key : String
  max : ℚ
  consumed : ℚ
  overage : Option OverageConfig
  deriving DecidableEq

/-- The state of one limit of the entitlement after another. -/
def limitStates (org : ResourceRef) (subscription : Subscription) (planId : String)
    (snapshot : Option PlanSnapshot) (overrides : Option TenantOverrides) :
    List String → StoreM (List LimitState)
  | [] => return []
  | limitKey :: limitKeys => do
      match limitDefOf config snapshot planId limitKey with
      | none => limitStates org subscription planId snapshot overrides limitKeys
      | some limitDef =>
        let resolvedMax ←
          computeEffectiveLimit config limitDef.max limitKey org subscription overrides
        let state ←
          if resolvedMax = -1 then pure ⟨limitKey, -1, 0, limitDef.overage⟩
          else do
            let consumed ← await (.getConsumption
              (walletOf org limitKey (limitPeriod config subscription limitDef)))
            pure (⟨limitKey, resolvedMax, consumed, limitDef.overage⟩ : LimitState)
        let states ← limitStates org subscription planId snapshot overrides limitKeys
        return state :: states

def resolveAllLimitStates (entitlement : String) (org : ResourceRef)
    (overrides : Option TenantOverrides) (levelDefaultPlan : Option String) :
    StoreM (List LimitState) := do
  let subscription ← await (.getSubscription org.type org.id)
  match subscription, present (resolveEffectivePlan subscription config.accessDef.plans
    (levelDefaultPlan.or config.accessDef.defaultPlan) config.now) with
  | some subscription, some planId =>
    match config.accessDef.limitKeys entitlement with
    | [] => return []
    | limitKey :: limitKeys =>
      let snapshot ← versionSnapshot config org planId
      limitStates config org subscription planId snapshot overrides (limitKey :: limitKeys)
  | _, _ => return []

/-- Whether none of the limits of a level is exceeded. -/
def checkLimitStates : List LimitState → Bool
  | [] => true
  | ws :: walletStates =>
    if ws.max = 0 then false
    else if ws.max = -1 then checkLimitStates walletStates
    else if ws.consumed ≥ ws.max then
      match ws.overage with
      | some overage =>
        match overage.cap with
        | some cap =>
          if (overageCost overage (ws.consumed - ws.max)).ge cap then false
          else checkLimitStates walletStates
        | none => checkLimitStates walletStates
      | none => false
    else checkLimitStates walletStates

/-- Whether a plan limits the entitlement. -/
def planLimits (planId entitlement : String) : Bool :=
  match (config.accessDef.plan? planId).bind PlanDef.limits with
  | some limits => (config.accessDef.limitKeys entitlement).any fun k => (limits.get? k).isSome
  | none => false

def checkMultiLevelLimits (entitlement : String) : List AncestorChainEntry → StoreM Bool
  | [] => return true
  | entry :: chain => do
      match ← await (.getSubscription entry.type entry.id) with
      | none => checkMultiLevelLimits entitlement chain
      | some subscription =>
        let levelDefault := config.accessDef.levelDefault entry.type
        match present (resolveEffectivePlan (some subscription) config.accessDef.plans
          levelDefault config.now) with
        | none => checkMultiLevelLimits entitlement chain
        | some planId =>
          if !planLimits config planId entitlement then checkMultiLevelLimits entitlement chain
          else
            let levelOverrides ← overridesOf config entry.type entry.id
            let walletStates ← resolveAllLimitStates config entitlement ⟨entry.type, entry.id⟩
              levelOverrides levelDefault
            if checkLimitStates walletStates then checkMultiLevelLimits entitlement chain
            else return false

/-! ### `can` -/

def resolveOrg (resource : Option ResourceRef) : StoreM (Option ResourceRef) :=
  if config.orgResolver then await (.orgResolver resource) else pure none

/-- The overrides of the resolved org. -/
def orgOverrides (resolvedOrg : Option ResourceRef) : StoreM (Option TenantOverrides) :=
  match resolvedOrg with
  | some org => overridesOf config org.type org.id
  | none => return none

/-- The ancestor chain of the resolved org. -/
def orgChain (resolvedOrg : Option ResourceRef) : StoreM (Option (List AncestorChainEntry)) :=
  match resolvedOrg with
  | some org => resolveAncestorChain config org
  | none => return none

/-- What a store error inside the limit layer comes to. -/
def onCloudError (error : StoreError) : StoreM Bool :=
  match config.cloudFailMode with
  | none => throw error
  | some mode => return mode = .open

/-- Layer 4 of `can`: no limit at the resource's billing levels is exceeded. -/
def checkLimits (entitlement : String) (resolvedOrg : Option ResourceRef)
    (overrides : Option TenantOverrides) (chain : Option (List AncestorChainEntry)) :
    StoreM Bool :=
  match config.accessDef.limitKeys entitlement, config.walletStore && config.subscriptionStore,
    resolvedOrg with
  | _ :: _, true, some org =>
    tryCatch
      (match chain with
        | some chain => checkMultiLevelLimits config entitlement chain
        | none => do
            let walletStates ← resolveAllLimitStates config entitlement org overrides none
            return checkLimitStates walletStates)
      (onCloudError config)
  | _, _, _ => return true

def can (entitlement : String) (resource : Option ResourceRef) : StoreM Bool := do
  let resolvedOrg ← resolveOrg config resource
  let overrides ← orgOverrides config resolvedOrg
  let chain ← orgChain config resolvedOrg
  if !(← checkLayers1to3 config entitlement resource resolvedOrg overrides chain) then
    return false
  checkLimits config entitlement resolvedOrg overrides chain

/-! ### `check` -/

/-- `remaining` is `none` for infinity. -/
structure LimitMeta where
  key : String
  max : ℚ
  consumed : ℚ
  remaining : Option ℚ
  overage : Bool
  deriving DecidableEq

structure DenialMeta where
  requiredPlans : Option (List String)
  requiredRoles : Option (List String)
  disabledFlags : Option (List String)
  limit : Option LimitMeta
  fvaMaxAge : Option ℚ
  cloudError : Bool
  deriving DecidableEq

/-- The reasons and the metadata that a check has collected. -/
structure Denials where
  reasons : List DenialReason
  details : DenialMeta
  deriving DecidableEq

structure AccessCheckResult where
  allowed : Bool
  reasons : List DenialReason
  reason : Option DenialReason
  details : Option DenialMeta
  deriving DecidableEq

namespace Denials

def empty : Denials := ⟨[], ⟨none, none, none, none, none, false⟩⟩

def push (denials : Denials) (reason : DenialReason) : Denials :=
  { denials with reasons := denials.reasons ++ [reason] }

def setLimit (denials : Denials) (limit : LimitMeta) : Denials :=
  { denials with details := { denials.details with limit := some limit } }

end Denials

/-- A check that throws keeps what it has collected. -/
abbrev CheckM := ExceptT (StoreError × Denials) (Program stores)

def withDenials {α : Type} (denials : Denials) (p : StoreM α) : CheckM α :=
  ExceptT.adapt (·, denials) p

/-- The flags that are off. -/
def collectDisabled (enabled : String → StoreM Bool) : List String → StoreM (List String)
  | [] => return []
  | flag :: flags => do
      let on ← enabled flag
      let disabled ← collectDisabled enabled flags
      return if on then disabled else flag :: disabled

def checkFlagsForCheck (entDef : EntitlementDef) (resolvedOrg : Option ResourceRef)
    (chain : Option (List AncestorChainEntry)) (denials : Denials) : StoreM Denials :=
  match entDef.flags.getD [], config.flagStore && config.orgResolver with
  | flag :: flags, true =>
    let deny (disabledFlags : List String) : Denials :=
      { reasons := denials.reasons ++ [.flagDisabled]
        details := { denials.details with disabledFlags := some disabledFlags } }
    match resolvedOrg with
    | none => return deny (flag :: flags)
    | some org => do
        let disabledFlags ←
          match chain with
          | some chain => collectDisabled (resolveMultiLevelFlag · chain) (flag :: flags)
          | none =>
            collectDisabled (fun flag => await (.getFlag org.type org.id flag)) (flag :: flags)
        return if disabledFlags.isEmpty then denials else deny disabledFlags
  | _, _ => return denials

/-- Whether the user has one of the roles; a role that is not inherited
becomes the empty role. -/
def hasRoleForCheck (userId : String) (entDef : EntitlementDef) (entitlement : String) :
    Option ResourceRef → StoreM Bool
  | none => return false
  | some resource => do
      match present (← await (.getEffectiveRole userId resource.type resource.id)) with
      | none => return false
      | some effectiveRole =>
        let roleToCheck :=
          if resource.type ≠ entitlementEntity entitlement then
            match present (resolveInheritedRole resource.type effectiveRole
              (entitlementEntity entitlement) config.accessDef) with
            | some inherited => inherited
            | none => ""
          else effectiveRole
        return entDef.roles.contains roleToCheck

def checkRolesForCheck (userId : String) (entDef : EntitlementDef) (entitlement : String)
    (resource : Option ResourceRef) (denials : Denials) : StoreM Denials := do
  if entDef.roles.isEmpty then return denials
  if ← hasRoleForCheck config userId entDef entitlement resource then return denials
  return {
    reasons := denials.reasons ++ [.roleRequired]
    details := { denials.details with requiredRoles := some entDef.roles } }

/-- The plans that have the entitlement as a feature. -/
def plansWithFeature (entitlement : String) : List String :=
  match config.accessDef.plans with
  | some plans =>
    (plans.entries.filter fun plan => featuresInclude plan.2.features entitlement).map Prod.fst
  | none => []

/-- Whether the plan denies, where plans gate the entitlement. -/
def planDeniedForCheck (entitlement : String) (resolvedOrg : Option ResourceRef)
    (overrides : Option TenantOverrides) (chain : Option (List AncestorChainEntry)) :
    StoreM Bool :=
  match resolvedOrg, chain with
  | none, _ => return true
  | some _, some chain => do
      let hasFeature ← resolveMultiLevelFeature config entitlement chain
      return !hasFeature
  | some org, none => do
      let subscription ← await (.getSubscription org.type org.id)
      match present (resolveEffectivePlan subscription config.accessDef.plans
        config.accessDef.defaultPlan config.now) with
      | none => return true
      | some planId =>
        let hasFeature ← resolveEffectiveFeatures config org entitlement planId overrides
        return !hasFeature

def checkPlanForCheck (entitlement : String) (resolvedOrg : Option ResourceRef)
    (overrides : Option TenantOverrides) (chain : Option (List AncestorChainEntry))
    (denials : Denials) : StoreM Denials := do
  if config.accessDef.planGatedEntitlements.contains entitlement && config.subscriptionStore
    && config.orgResolver then
    let planDenied ← planDeniedForCheck config entitlement resolvedOrg overrides chain
    if planDenied then
      return {
        reasons := denials.reasons ++ [.planRequired]
        details := { denials.details with
          requiredPlans := some (plansWithFeature config entitlement) } }
    return denials
  return denials

/-- One level's limits, up to the first that blocks. -/
def checkSingleLevelLimitsForCheck : List LimitState → Denials → Denials
  | [], denials => denials
  | ws :: walletStates, denials =>
    let overLimit : LimitMeta := ⟨ws.key, ws.max, ws.consumed, some 0, true⟩
    let remaining : Option ℚ := if ws.max = -1 then none else some (max 0 (ws.max - ws.consumed))
    let state : LimitMeta := ⟨ws.key, ws.max, ws.consumed, remaining, false⟩
    let exceeded := ws.max = 0 ∨ (ws.max ≠ -1 ∧ ws.consumed ≥ ws.max)
    if exceeded then
      match ws.overage with
      | some overage =>
        if ws.max ≠ 0 then
          let capHit := match overage.cap with
            | some cap => (overageCost overage (ws.consumed - ws.max)).ge cap
            | none => false
          if capHit then (denials.push .limitReached).setLimit overLimit
          else checkSingleLevelLimitsForCheck walletStates (denials.setLimit overLimit)
        else (denials.push .limitReached).setLimit state
      | none => (denials.push .limitReached).setLimit state
    else if denials.details.limit.isNone then
      checkSingleLevelLimitsForCheck walletStates (denials.setLimit state)
    else checkSingleLevelLimitsForCheck walletStates denials

/-- Level after level, up to the first that blocks. -/
def checkMultiLevelLimitsForCheck (entitlement : String) :
    List AncestorChainEntry → Denials → CheckM Denials
  | [], denials => return denials
  | entry :: chain, denials => do
      match ← withDenials denials (await (.getSubscription entry.type entry.id)) with
      | none => checkMultiLevelLimitsForCheck entitlement chain denials
      | some subscription =>
        let levelDefault := config.accessDef.levelDefault entry.type
        match present (resolveEffectivePlan (some subscription) config.accessDef.plans
          levelDefault config.now) with
        | none => checkMultiLevelLimitsForCheck entitlement chain denials
        | some planId =>
          if !planLimits config planId entitlement then
            checkMultiLevelLimitsForCheck entitlement chain denials
          else
            let levelOverrides ← withDenials denials (overridesOf config entry.type entry.id)
            let walletStates ← withDenials denials (resolveAllLimitStates config entitlement
              ⟨entry.type, entry.id⟩ levelOverrides levelDefault)
            let denials := checkSingleLevelLimitsForCheck walletStates denials
            if denials.reasons.contains .limitReached then return denials
            else checkMultiLevelLimitsForCheck entitlement chain denials

/-- What a store error inside the limit layer of a check comes to: a denial
unless the fail mode is `open`. -/
def onCloudErrorForCheck (error : StoreError) (denials : Denials) : StoreM Denials :=
  match config.cloudFailMode with
  | none => throw error
  | some mode =>
    let failed := { denials with details := { denials.details with cloudError := true } }
    return if mode ≠ .open then failed.push .limitReached else failed

/-- Layer 4 of a check. -/
def checkLimitsForCheck (entitlement : String) (resolvedOrg : Option ResourceRef)
    (overrides : Option TenantOverrides) (chain : Option (List AncestorChainEntry))
    (denials : Denials) : StoreM Denials :=
  match config.accessDef.limitKeys entitlement, config.walletStore && config.subscriptionStore,
    resolvedOrg with
  | _ :: _, true, some org => do
      let result ← ExceptT.lift (match chain with
        | some chain => checkMultiLevelLimitsForCheck config entitlement chain denials
        | none => do
            let walletStates ← withDenials denials
              (resolveAllLimitStates config entitlement org overrides none)
            return checkSingleLevelLimitsForCheck walletStates denials : CheckM Denials).run
      match result with
      | .ok denials => return denials
      | .error (error, denials) => onCloudErrorForCheck config error denials
  | _, _, _ => return denials

def denialOrder : DenialReason → ℕ
  | .planRequired => 0
  | .roleRequired => 1
  | .limitReached => 2
  | .flagDisabled => 3
  | .hierarchyDenied => 4
  | .stepUpRequired => 5
  | .notAuthenticated => 6

def orderDenialReasons (reasons : List DenialReason) : List DenialReason :=
  reasons.insertionSort fun a b => denialOrder a ≤ denialOrder b

def deniedFor (reason : DenialReason) : AccessCheckResult := ⟨false, [reason], some reason, none⟩

def Denials.result (denials : Denials) : AccessCheckResult :=
  let orderedReasons := orderDenialReasons denials.reasons
  { allowed := orderedReasons.isEmpty
    reasons := orderedReasons
    reason := orderedReasons.head?
    details := if denials.details = Denials.empty.details then none else some denials.details }

def check (entitlement : String) (resource : Option ResourceRef) : StoreM AccessCheckResult :=
  match present config.userId, config.accessDef.entitlements.get? entitlement with
  | none, _ => return deniedFor .notAuthenticated
  | some _, none => return deniedFor .roleRequired
  | some userId, some entDef => do
      let resolvedOrg ← resolveOrg config resource
      let overrides ← orgOverrides config resolvedOrg
      let chain ← orgChain config resolvedOrg
      let denials ← checkFlagsForCheck config entDef resolvedOrg chain .empty
      let denials ← checkRolesForCheck config userId entDef entitlement resource denials
      let denials ← checkPlanForCheck config entitlement resolvedOrg overrides chain denials
      let denials ← checkLimitsForCheck config entitlement resolvedOrg overrides chain denials
      return denials.result

/-! ### `canAndConsume` and `unconsume` -/

/-- `Number.MAX_SAFE_INTEGER` -/
def maxSafeInteger : ℚ := 9007199254740991

structure LimitConsumption where
  wallet : WalletRef
  effectiveMax : ℚ
  overage : Option OverageConfig
  deriving DecidableEq

def limitConsumptions (org : ResourceRef) (subscription : Subscription) (planId : String)
    (snapshot : Option PlanSnapshot) (overrides : Option TenantOverrides) :
    List String → StoreM (List LimitConsumption)
  | [] => return []
  | limitKey :: limitKeys => do
      match limitDefOf config snapshot planId limitKey with
      | none => limitConsumptions org subscription planId snapshot overrides limitKeys
      | some limitDef =>
        let effectiveMax ←
          computeEffectiveLimit config limitDef.max limitKey org subscription overrides
        let wallet := walletOf org limitKey (limitPeriod config subscription limitDef)
        let consumptions ←
          limitConsumptions org subscription planId snapshot overrides limitKeys
        return ⟨wallet, effectiveMax, limitDef.overage⟩ :: consumptions

def resolveAllLimitConsumptions (org : ResourceRef) (entitlement planId : String)
    (subscription : Subscription) (overrides : Option TenantOverrides) :
    StoreM (List LimitConsumption) := do
  match config.accessDef.limitKeys entitlement with
  | [] => return []
  | limitKey :: limitKeys =>
    let snapshot ← versionSnapshot config org planId
    limitConsumptions config org subscription planId snapshot overrides (limitKey :: limitKeys)

/-- A billing level with a plan that limits the entitlement. -/
structure ChainEntry where
  org : ResourceRef
  subscription : Subscription
  planId : String
  overrides : Option TenantOverrides

def resolveChainEntry (entitlement : String) (org : ResourceRef) : StoreM (Option ChainEntry) := do
  match ← await (.getSubscription org.type org.id) with
  | none => return none
  | some subscription =>
    let defaultPlan :=
      if org.type = "" then some "" else config.accessDef.levelDefault org.type
    match present (resolveEffectivePlan (some subscription) config.accessDef.plans
      defaultPlan config.now) with
    | none => return none
    | some planId =>
      if !planLimits config planId entitlement then return none
      else
        let overrides ← overridesOf config org.type org.id
        return some ⟨org, subscription, planId, overrides⟩

def resolveChainEntries (entitlement : String) : List ResourceRef → StoreM (List ChainEntry)
  | [] => return []
  | org :: orgs => do
      let entry ← resolveChainEntry config entitlement org
      let entries ← resolveChainEntries entitlement orgs
      return match entry with
        | some entry => entry :: entries
        | none => entries

/-- The billing levels of an org, from root to leaf. -/
def buildConsumptionChain (currentOrg : ResourceRef) (entitlement : String) :
    StoreM (List ChainEntry) := do
  if !config.subscriptionStore then return []
  let ancestors ←
    match config.ancestorResolver, present config.tenantLevel with
    | true, some tenantLevel => await (.ancestorResolver tenantLevel currentOrg.id)
    | _, _ => pure []
  resolveChainEntries config entitlement
    (ancestors.reverse.map (fun ancestor => ⟨ancestor.type, ancestor.id⟩) ++ [currentOrg])

/-- Take back what was consumed. An unconsume that fails is swallowed. -/
def rollbackCascadedConsumptions (amount : ℚ) : List WalletRef → StoreM Unit
  | [] => return ()
  | wallet :: consumed => do
      tryCatch (await (.unconsume wallet amount)) fun _ => return ()
      rollbackCascadedConsumptions amount consumed

/-- Whether the cost of the overage stays under its cap. -/
def underCap (lc : LimitConsumption) (amount : ℚ) : StoreM Bool :=
  match lc.overage with
  | some overage =>
    match overage.cap with
    | some cap => do
        let currentConsumed : ℚ ← await (.getConsumption lc.wallet)
        let overageUnits := max 0 (currentConsumed + amount - lc.effectiveMax)
        return !(overageCost overage overageUnits).gt cap
    | none => return true
  | none => return true

/-- Consume from the limits of one level; `none` when one did not admit the
amount and everything was taken back. -/
def consumeLimits (amount : ℚ) :
    List LimitConsumption → List WalletRef → StoreM (Option (List WalletRef))
  | [], allConsumed => return some allConsumed
  | lc :: limits, allConsumed => do
      if lc.effectiveMax = -1 then consumeLimits amount limits allConsumed
      else if lc.effectiveMax = 0 then
        rollbackCascadedConsumptions amount allConsumed
        return none
      else if !(← underCap lc amount) then
        rollbackCascadedConsumptions amount allConsumed
        return none
      else
        let consumeMax := if lc.overage.isSome then maxSafeInteger else lc.effectiveMax
        let success : Bool ← await (.consume lc.wallet consumeMax amount)
        if success then
          consumeLimits amount limits (allConsumed ++ [lc.wallet])
        else
          rollbackCascadedConsumptions amount allConsumed
          return none

/-- Consume from every level, root first. -/
def consumeChain (entitlement : String) (amount : ℚ) :
    List ChainEntry → List WalletRef → StoreM Bool
  | [], _ => return true
  | entry :: chain, allConsumed => do
      let limitsToConsume ← resolveAllLimitConsumptions config entry.org entitlement entry.planId
        entry.subscription entry.overrides
      match ← consumeLimits amount limitsToConsume allConsumed with
      | some allConsumed => consumeChain entitlement amount chain allConsumed
      | none => return false

def canAndConsume (entitlement : String) (resource : Option ResourceRef) (amount : ℚ) :
    StoreM Bool := do
  let resolvedOrg ← resolveOrg config resource
  let overrides ← orgOverrides config resolvedOrg
  let ancestorChain ← orgChain config resolvedOrg
  if !(← checkLayers1to3 config entitlement resource resolvedOrg overrides ancestorChain) then
    return false
  if !(config.walletStore && config.subscriptionStore && config.orgResolver) then return true
  if (config.accessDef.limitKeys entitlement).isEmpty then return true
  match resolvedOrg with
  | none => return false
  | some org =>
    let chain ← buildConsumptionChain config org entitlement
    if chain.isEmpty then return false
    tryCatch (consumeChain config entitlement amount chain []) (onCloudError config)

def unconsumeLimits (amount : ℚ) : List LimitConsumption → StoreM Unit
  | [] => return ()
  | lc :: limits => do
      if lc.effectiveMax = -1 then unconsumeLimits amount limits
      else
        await (.unconsume lc.wallet amount)
        unconsumeLimits amount limits

def unconsumeChain (entitlement : String) (amount : ℚ) : List ChainEntry → StoreM Unit
  | [] => return ()
  | entry :: chain => do
      let limitsToUnconsume ← resolveAllLimitConsumptions config entry.org entitlement entry.planId
        entry.subscription entry.overrides
      unconsumeLimits amount limitsToUnconsume
      unconsumeChain entitlement amount chain

def unconsume (entitlement : String) (resource : Option ResourceRef) (amount : ℚ) :
    StoreM Unit := do
  if !(config.walletStore && config.subscriptionStore && config.orgResolver) then return ()
  if (config.accessDef.limitKeys entitlement).isEmpty then return ()
  match ← await (.orgResolver resource) with
  | none => return ()
  | some org =>
    let chain ← buildConsumptionChain config org entitlement
    unconsumeChain config entitlement amount chain

end Vertz.Server.Auth
