import Vertz.Server.Auth.AccessContext
import Vertz.Server.Auth.ClosureStore

/-!
# `Vertz.Server.Auth.AccessSet`: the entitlements of a user, computed at once

`computeAccessSet` collects the roles a user has anywhere in the hierarchy
and gives every entitlement an entry. Flags, plans and limits of the
tenant then deny entries, one loop after the other. The set goes into the
token of the user.

A Map or Set is a record or a list; the batch read of the wallet store is
one read a key.
-/

namespace Vertz.Server.Auth

open Vertz.Lib

structure AccessCheckData where
  allowed : Bool
  reasons : List DenialReason
  reason : Option DenialReason
  details : Option DenialMeta
  deriving DecidableEq

structure AccessSet where
  entitlements : Record AccessCheckData
  flags : Record Bool
  plan : Option String
  plans : Record (Option String)
  computedAt : ℤ

structure ComputeAccessSetConfig where
  userId : Option String
  accessDef : AccessDefinition
  roleStore : InMemoryRoleAssignmentStore
  closureStore : InMemoryClosureStore
  flagStore : Bool
  subscriptionStore : Bool
  walletStore : Bool
  tenantId : Option String
  tenantLevel : Option String
  ancestorResolver : Bool
  now : ℤ

namespace AccessCheckData

/-- Add a reason to an entry, which then denies. -/
def deny (entry : AccessCheckData) (reason : DenialReason) (describe : DenialMeta → DenialMeta) :
    AccessCheckData :=
  let reasons :=
    if reason ∈ entry.reasons then entry.reasons else entry.reasons ++ [reason]
  { allowed := false
    reasons := reasons
    reason := reasons.head?
    details := some (describe (entry.details.getD Denials.empty.details)) }

def setLimit (entry : AccessCheckData) (limit : LimitMeta) : AccessCheckData :=
  { entry with
    details := some { entry.details.getD Denials.empty.details with limit := some limit } }

end AccessCheckData

/-! ### Roles -/

def addRole (map : Record (List String)) (resourceType role : String) : Record (List String) :=
  let roles := (map.get? resourceType).getD []
  map.insert resourceType (if role ∈ roles then roles else roles ++ [role])

/-- The role an assignment gives on a descendant of its resource. -/
def addInheritedRole (accessDef : AccessDefinition) (assignment : RoleAssignment)
    (map : Record (List String)) (desc : ClosureEntry) : Record (List String) :=
  if desc.depth = 0 then map
  else match present (resolveInheritedRole assignment.resource.type assignment.role
      desc.resource.type accessDef) with
    | some inheritedRole => addRole map desc.resource.type inheritedRole
    | none => map

def addAssignment (accessDef : AccessDefinition) (closureStore : InMemoryClosureStore)
    (map : Record (List String)) (assignment : RoleAssignment) : Record (List String) :=
  (closureStore.getDescendants assignment.resource).foldl (addInheritedRole accessDef assignment)
    (addRole map assignment.resource.type assignment.role)

/-- The roles the user has on some resource of each type. -/
def effectiveRolesByType (accessDef : AccessDefinition) (roleStore : InMemoryRoleAssignmentStore)
    (closureStore : InMemoryClosureStore) (userId : String) : Record (List String) :=
  (roleStore.getRolesForUser userId).foldl (addAssignment accessDef closureStore) .empty

def allRoles (accessDef : AccessDefinition) (roleStore : InMemoryRoleAssignmentStore)
    (closureStore : InMemoryClosureStore) (userId : String) : List String :=
  (effectiveRolesByType accessDef roleStore closureStore userId).entries.flatMap Prod.snd

/-- The entry by roles alone. -/
def roleEntry (roles : List String) (entDef : EntitlementDef) : AccessCheckData :=
  if entDef.roles.isEmpty then ⟨true, [], none, none⟩
  else if entDef.roles.any fun r => roles.contains r then ⟨true, [], none, none⟩
  else
    { allowed := false
      reasons := [.roleRequired]
      reason := some .roleRequired
      details := some { Denials.empty.details with requiredRoles := some entDef.roles } }

/-- One entry after the other, in the order of the definition. -/
def updateEach (accessDef : AccessDefinition)
    (update : String → EntitlementDef → AccessCheckData → AccessCheckData)
    (entitlements : Record AccessCheckData) : Record AccessCheckData :=
  accessDef.entitlements.entries.foldl (fun acc e => acc.modify e.1 (update e.1 e.2)) entitlements

variable (config : ComputeAccessSetConfig)

/-- The level and the id of the tenant, where there are billing levels. -/
def multiLevel : Option (String × String) :=
  match config.ancestorResolver, present config.tenantLevel, present config.tenantId with
  | true, some tenantLevel, some tenantId => some (tenantLevel, tenantId)
  | _, _, _ => none

def tenantChain (tenantLevel tenantId : String) : StoreM (List AncestorChainEntry) := do
  let ancestors ← await (.ancestorResolver tenantLevel tenantId)
  return ⟨tenantLevel, tenantId, 0⟩ :: sortByDepth ancestors

/-! ### Flags -/

def flagsByLevel : List AncestorChainEntry → StoreM (List (Record Bool))
  | [] => return []
  | entry :: chain => do
      let levelFlags ← await (.getFlags entry.type entry.id)
      let levels ← flagsByLevel chain
      return levelFlags :: levels

/-- Every flag of some level, as the deepest level that has it says. -/
def resolveFlags (levels : List (Record Bool)) : Record Bool :=
  .ofList ((levels.flatMap Record.keys).map fun key =>
    (key, (levels.findSome? fun flags => flags.get? key).getD false))

def denyDisabled (resolvedFlags : Record Bool) (entDef : EntitlementDef)
    (entry : AccessCheckData) : AccessCheckData :=
  match (entDef.flags.getD []).filter fun flag => !(resolvedFlags.get? flag).getD false with
  | [] => entry
  | flag :: flags =>
    entry.deny .flagDisabled fun details => { details with disabledFlags := some (flag :: flags) }

/-- The flags of the tenant. -/
def tenantFlags (tenantId : String) : StoreM (Record Bool) :=
  match multiLevel config with
  | some (tenantLevel, tenantId) => do
      let chain ← tenantChain tenantLevel tenantId
      let levels ← flagsByLevel chain
      return resolveFlags levels
  | none => await (.getFlags (config.tenantLevel.getD "tenant") tenantId)

/-- The flags of the tenant, and the entries they leave. -/
def applyFlags (tenantId : String) (entitlements : Record AccessCheckData) :
    StoreM (Record Bool × Record AccessCheckData) := do
  if config.flagStore then
    let resolvedFlags ← tenantFlags config tenantId
    return (resolvedFlags,
      updateEach config.accessDef (fun _ entDef => denyDisabled resolvedFlags entDef) entitlements)
  return (.empty, entitlements)

/-! ### Plans -/

def featuresOf (planId : String) : List String :=
  ((config.accessDef.plan? planId).bind PlanDef.features).getD []

/-- The features of a plan, if there is one. -/
def planFeatures (planId : Option String) : List String :=
  match present planId with
  | some planId => featuresOf config planId
  | none => []

def addOnFeatures (addOns : Option (List String)) : List String :=
  (addOns.getD []).flatMap (featuresOf config)

def requiredPlans (name : String) : List String :=
  match config.accessDef.plans with
  | some plans => (plans.entries.filter fun plan => featuresInclude plan.2.features name).map Prod.fst
  | none => []

/-- Deny an entitlement that plans gate and that is not among the features. -/
def denyUnplanned (hasFeature : Bool) (name : String) (entry : AccessCheckData) : AccessCheckData :=
  if config.accessDef.planGatedEntitlements.contains name && !hasFeature then
    entry.deny .planRequired fun details =>
      { details with requiredPlans := some (requiredPlans config name) }
  else entry

/-- What the billing levels of a tenant come to. -/
structure ChainPlans where
  resolvedPlans : Record (Option String)
  deepestPlan : Option String
  allEffectiveFeatures : List String
  featuresByLevel : Record (List String)

/-- The plan of a level: without a subscription the default of the level. -/
def levelPlan (entry : AncestorChainEntry) (sub : Option Subscription) : Option String :=
  match sub with
  | some sub => resolveEffectivePlan (some sub) config.accessDef.plans
      (some ((config.accessDef.levelDefault entry.type).getD "free")) config.now
  | none => config.accessDef.defaultPlans.bind (·.get? entry.type)

/-- The plan and the features of one more level. -/
def addLevel (entry : AncestorChainEntry) (sub : Option Subscription)
    (addOns : Option (List String)) (plans : ChainPlans) : ChainPlans :=
  let planId := levelPlan config entry sub
  let levelFeatures := planFeatures config planId ++ addOnFeatures config addOns
  { resolvedPlans := plans.resolvedPlans.insert entry.type planId
    deepestPlan := if entry.depth = 0 then planId else plans.deepestPlan
    allEffectiveFeatures := plans.allEffectiveFeatures ++ levelFeatures
    featuresByLevel :=
      if levelFeatures.isEmpty then plans.featuresByLevel
      else plans.featuresByLevel.insert entry.type levelFeatures }

/-- Level after level; one without plans is left out. -/
def resolveLevels : List AncestorChainEntry → ChainPlans → StoreM ChainPlans
  | [], plans => return plans
  | entry :: chain, plans => do
      if ((config.accessDef.billingLevels.get? entry.type).getD []).isEmpty then
        resolveLevels chain plans
      else
        let sub ← await (.getSubscription entry.type entry.id)
        let addOns ← await (.getAddOns entry.type entry.id)
        resolveLevels chain (addLevel config entry sub addOns plans)

def chainHasFeature (plans : ChainPlans) (tenantLevel name : String) (entDef : EntitlementDef) :
    Bool :=
  match entDef.featureResolution.getD .inherit with
  | .inherit => plans.allEffectiveFeatures.contains name
  | .local => ((plans.featuresByLevel.get? tenantLevel).getD []).contains name

/-! ### Limits -/

structure PendingLimit where
  entitlementName : String
  limitKey : String
  effectiveMax : ℚ
  period : Period

/-- The plan whose limits count, and what is added to them. -/
structure LimitSource where
  planDef : PlanDef
  addOns : Option (List String)
  overrides : Option (Record ℚ)
  periodAnchor : ℤ

/-- The limit with what the add-ons allow, raised by an override. -/
def effectiveMaxOf (source : LimitSource) (limitKey : String) (limitDef : LimitDef) : ℚ :=
  let effectiveMax :=
    addAddOns config.accessDef limitKey (source.addOns.getD []) limitDef.max
  match source.overrides.bind (·.get? limitKey) with
  | some override => max effectiveMax override
  | none => effectiveMax

/-- The limit under the first limit key of an entitlement. -/
def limitOf (source : LimitSource) (name : String) : Option PendingLimit :=
  match config.accessDef.limitKeys name with
  | [] => none
  | limitKey :: _ =>
    match source.planDef.limit? limitKey with
    | none => none
    | some limitDef =>
      let period := match limitDef.per with
        | some per => calculateBillingPeriod source.periodAnchor per config.now
        | none => ⟨source.periodAnchor, endOfTime⟩
      some ⟨name, limitKey, effectiveMaxOf config source limitKey limitDef, period⟩

/-- An unlimited entry is done; another one waits for its consumption. -/
def collectLimit (source : LimitSource) (name : String)
    (state : Record AccessCheckData × List PendingLimit) :
    Record AccessCheckData × List PendingLimit :=
  match limitOf config source name with
  | none => state
  | some pending =>
    if pending.effectiveMax = -1 then
      (state.1.modify name (·.setLimit ⟨pending.limitKey, -1, 0, some (-1), false⟩), state.2)
    else (state.1, state.2 ++ [pending])

def addToGroup (pending : PendingLimit) :
    List (Period × List PendingLimit) → List (Period × List PendingLimit)
  | [] => [(pending.period, [pending])]
  | (period, entries) :: groups =>
    if period = pending.period then (period, entries ++ [pending]) :: groups
    else (period, entries) :: addToGroup pending groups

def groupByPeriod (pendingLimits : List PendingLimit) : List (Period × List PendingLimit) :=
  pendingLimits.foldl (fun groups pending => addToGroup pending groups) []

def getBatchConsumption (resource : ResourceRef) (period : Period) :
    List String → Record ℚ → StoreM (Record ℚ)
  | [], result => return result
  | key :: limitKeys, result => do
      let consumed : ℚ ← await (.getConsumption (walletOf resource key period))
      getBatchConsumption resource period limitKeys (result.insert key consumed)

/-- The usage of a limit; a limit that is reached denies. -/
def enrichEntry (pending : PendingLimit) (consumed : ℚ) (entry : AccessCheckData) :
    AccessCheckData :=
  let remaining := max 0 (pending.effectiveMax - consumed)
  let limit : LimitMeta := ⟨pending.limitKey, pending.effectiveMax, consumed, some remaining, false⟩
  if consumed ≥ pending.effectiveMax then
    entry.deny .limitReached fun details => { details with limit := some limit }
  else entry.setLimit limit

def enrichGroups (resource : ResourceRef) :
    List (Period × List PendingLimit) → Record AccessCheckData → StoreM (Record AccessCheckData)
  | [], entitlements => return entitlements
  | (period, entries) :: groups, entitlements => do
      let consumptionMap ←
        getBatchConsumption resource period (entries.map (·.limitKey)) .empty
      enrichGroups resource groups (entries.foldl (fun acc pending =>
        acc.modify pending.entitlementName
          (enrichEntry pending ((consumptionMap.get? pending.limitKey).getD 0))) entitlements)

def enrichLimitsFromBatch (pendingLimits : List PendingLimit)
    (entitlements : Record AccessCheckData) (resource : ResourceRef) :
    StoreM (Record AccessCheckData) :=
  enrichGroups resource (groupByPeriod pendingLimits) entitlements

/-! ### The set -/

/-- The limits of the deepest plan of a tenant with billing levels. Without
a subscription periods start at the epoch. -/
def enrichDeepest (tenant : ResourceRef) (planDef : PlanDef) (deepestSub : Option Subscription)
    (deepestAddOns : Option (List String)) (entitlements : Record AccessCheckData) :
    StoreM (Record AccessCheckData) :=
  let source : LimitSource :=
    { planDef := planDef
      addOns := deepestAddOns
      overrides := deepestSub.map (·.overrides)
      periodAnchor := (deepestSub.map (·.startedAt)).getD 0 }
  let state := config.accessDef.entitlements.keys.foldl
    (fun state name => collectLimit config source name state) (entitlements, [])
  enrichLimitsFromBatch state.2 state.1 tenant

/-- The limits, where the tenant has a plan of its own. -/
def applyDeepest (tenant : ResourceRef) (deepestPlan : Option String)
    (entitlements : Record AccessCheckData) : StoreM (Record AccessCheckData) :=
  match config.walletStore, present deepestPlan with
  | true, some deepestPlan => do
      let deepestSub ← await (.getSubscription tenant.type tenant.id)
      match config.accessDef.plan? deepestPlan with
      | none => return entitlements
      | some planDef =>
        let deepestAddOns ← await (.getAddOns tenant.type tenant.id)
        enrichDeepest config tenant planDef deepestSub deepestAddOns entitlements
  | _, _ => return entitlements

/-- Plans and limits of a tenant with billing levels. -/
def applyChainPlans (tenantLevel tenantId : String) (entitlements : Record AccessCheckData) :
    StoreM (Option String × Record (Option String) × Record AccessCheckData) := do
  let chain ← tenantChain tenantLevel tenantId
  let plans ← resolveLevels config chain ⟨.empty, none, [], .empty⟩
  let planned := updateEach config.accessDef (fun name entDef =>
    denyUnplanned config (chainHasFeature plans tenantLevel name entDef) name) entitlements
  let enriched ← applyDeepest config ⟨tenantLevel, tenantId⟩ plans.deepestPlan planned
  return (plans.deepestPlan, plans.resolvedPlans, enriched)

/-- Deny an entitlement that is not planned, and collect its limit. -/
def planEntitlement (effectiveFeatures : List String) (source : LimitSource)
    (state : Record AccessCheckData × List PendingLimit) (name : String) :
    Record AccessCheckData × List PendingLimit :=
  let planned := state.1.modify name
    (denyUnplanned config (effectiveFeatures.contains name) name)
  if config.walletStore then collectLimit config source name (planned, state.2)
  else (planned, state.2)

/-- Features and limits of the one plan of a tenant. -/
def applyPlanDef (tenant : ResourceRef) (subscription : Subscription) (planDef : PlanDef)
    (addOns : Option (List String)) (entitlements : Record AccessCheckData) :
    StoreM (Record AccessCheckData) :=
  let effectiveFeatures := planDef.features.getD [] ++ addOnFeatures config addOns
  let source : LimitSource :=
    { planDef := planDef
      addOns := addOns
      overrides := some subscription.overrides
      periodAnchor := subscription.startedAt }
  let state := config.accessDef.entitlements.keys.foldl
    (planEntitlement config effectiveFeatures source) (entitlements, [])
  if config.walletStore then enrichLimitsFromBatch state.2 state.1 tenant
  else return state.1

/-- Plan and limits by the subscription; without one nothing is denied. -/
def applySubscription (tenant : ResourceRef) (entitlements : Record AccessCheckData)
    (subscription : Option Subscription) :
    StoreM (Option String × Record (Option String) × Record AccessCheckData) :=
  match subscription with
  | none => return (none, .empty, entitlements)
  | some subscription =>
    let effectivePlanId := resolveEffectivePlan (some subscription) config.accessDef.plans
      config.accessDef.defaultPlan config.now
    match (present effectivePlanId).bind config.accessDef.plan? with
    | none => return (effectivePlanId, .empty, entitlements)
    | some planDef => do
        let addOns ← await (.getAddOns tenant.type tenant.id)
        let planned ← applyPlanDef config tenant subscription planDef addOns entitlements
        return (effectivePlanId, .empty, planned)

/-- Plan and limits of a tenant that is billed alone. -/
def applyPlan (tenant : ResourceRef) (entitlements : Record AccessCheckData) :
    StoreM (Option String × Record (Option String) × Record AccessCheckData) := do
  let subscription ← await (.getSubscription tenant.type tenant.id)
  applySubscription config tenant entitlements subscription

def applyPlans (tenantId : String) (entitlements : Record AccessCheckData) :
    StoreM (Option String × Record (Option String) × Record AccessCheckData) :=
  if config.subscriptionStore then
    match multiLevel config with
    | some (tenantLevel, tenantId) => applyChainPlans config tenantLevel tenantId entitlements
    | none => applyPlan config ⟨config.tenantLevel.getD "tenant", tenantId⟩ entitlements
  else return (none, .empty, entitlements)

def computeAccessSet : StoreM AccessSet :=
  match present config.userId with
  | none => return {
      entitlements := config.accessDef.entitlements.mapValues fun _ =>
        ⟨false, [.notAuthenticated], some .notAuthenticated, none⟩
      flags := .empty, plan := none, plans := .empty, computedAt := config.now }
  | some userId => do
      let roles := allRoles config.accessDef config.roleStore config.closureStore userId
      let entitlements := config.accessDef.entitlements.mapValues (roleEntry roles)
      match present config.tenantId with
      | none => return ⟨entitlements, .empty, none, .empty, config.now⟩
      | some tenantId =>
        let (flags, entitlements) ← applyFlags config tenantId entitlements
        let (plan, plans, entitlements) ← applyPlans config tenantId entitlements
        return ⟨entitlements, flags, plan, plans, config.now⟩

/-! ### Encoding -/

structure EncodedAccessCheckData where
  allowed : Bool
  reasons : Option (List DenialReason)
  reason : Option DenialReason
  details : Option DenialMeta
  deriving DecidableEq

/-- The sparse form for the token of the user. -/
structure EncodedAccessSet where
  entitlements : Record EncodedAccessCheckData
  flags : Record Bool
  plan : Option String
  plans : Record (Option String)
  computedAt : ℤ

/-- The metadata, unless it has no fields. -/
def DenialMeta.nonempty? (details : DenialMeta) : Option DenialMeta :=
  if details = Denials.empty.details then none else some details

/-- What can be told about the organization is left out. -/
def DenialMeta.strip (details : DenialMeta) : DenialMeta :=
  { details with requiredRoles := none, requiredPlans := none }

/-- An allowed entry keeps its limit. A denied one is left out when it has
no metadata. -/
def encodeCheck (check : AccessCheckData) : Option EncodedAccessCheckData :=
  if check.allowed then
    some ⟨true, none, none, (check.details.bind DenialMeta.limit).map fun limit =>
      { Denials.empty.details with limit := some limit }⟩
  else
    (check.details.bind DenialMeta.nonempty?).map fun details =>
      ⟨false, if check.reasons = [] then none else some check.reasons, check.reason,
        details.strip.nonempty?⟩

def encodeAccessSet (set : AccessSet) : EncodedAccessSet where
  entitlements := set.entitlements.filterMapValues encodeCheck
  flags := set.flags
  plan := set.plan
  plans := set.plans
  computedAt := set.computedAt

def decodeCheck (check : EncodedAccessCheckData) : AccessCheckData :=
  ⟨check.allowed, check.reasons.getD [], check.reason, check.details⟩

/-- The entry of an entitlement that is missing. -/
def missingEntry : AccessCheckData := ⟨false, [.roleRequired], some .roleRequired, none⟩

def fillMissing (names : List String) (entitlements : Record AccessCheckData) :
    Record AccessCheckData :=
  names.foldl (fun entitlements name =>
    if name ∈ entitlements.keys then entitlements
    else entitlements.insert name missingEntry) entitlements

def decodeAccessSet (encoded : EncodedAccessSet) (accessDef : AccessDefinition) : AccessSet where
  entitlements := fillMissing accessDef.entitlements.keys
    (encoded.entitlements.mapValues decodeCheck)
  flags := encoded.flags
  plan := encoded.plan
  plans := encoded.plans
  computedAt := encoded.computedAt

end Vertz.Server.Auth
