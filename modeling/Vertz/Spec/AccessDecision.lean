import Vertz.Server.Auth.AccessSet

/-!
# `Vertz.Spec.AccessDecision`: access decisions, and what may change them

## A decision under unchanged stores

`can` and `check` only read. With stores that do not change, every call
has one reply, a value or an error, and the two computations have one
result each. `OnlyForcedRole` names the resources on which they differ.
-/

namespace Vertz.Spec

open Vertz.Lib
open Vertz.Server.Auth

/-- What each store call comes to. -/
abbrev Replies := (op : stores.Op) → stores.Reply op

variable (reply : Replies) (config : AccessContextConfig)

/-- `can` resolves to `true`. -/
def CanIsTrue (entitlement : String) (resource : Option ResourceRef) : Prop :=
  evalExcept reply (can config entitlement resource) = .ok true

/-- `check` resolves to a result that allows. -/
def CheckAllows (entitlement : String) (resource : Option ResourceRef) : Prop :=
  ∃ result, evalExcept reply (check config entitlement resource) = .ok result
    ∧ result.allowed = true

/-- The role the role store replies with for a resource. -/
def repliedRole (userId : String) (resource : ResourceRef) : Option String :=
  match reply (.getEffectiveRole userId resource.type resource.id) with
  | .ok found => present found
  | .error _ => none

/-- The user has a role on the resource which the type of the entitlement
does not inherit, and the entitlement lists the empty role. -/
def forcedRole (userId : String) (entDef : EntitlementDef) (entitlement : String) :
    Option ResourceRef → Prop
  | none => False
  | some resource =>
    resource.type ≠ entitlementEntity entitlement ∧ "" ∈ entDef.roles ∧
      ∃ role, repliedRole reply userId resource = some role
        ∧ present (resolveInheritedRole resource.type role (entitlementEntity entitlement)
          config.accessDef) = none

/-- The context that every layer is decided in: the user, the entitlement,
the org, its overrides and its ancestors. -/
structure Resolves (entitlement : String) (resource : Option ResourceRef) (userId : String)
    (entDef : EntitlementDef) (resolvedOrg : Option ResourceRef)
    (overrides : Option TenantOverrides) (chain : Option (List AncestorChainEntry)) : Prop where
  user : present config.userId = some userId
  entitlement : config.accessDef.entitlements.get? entitlement = some entDef
  org : evalExcept reply (resolveOrg config resource) = .ok resolvedOrg
  overrides : evalExcept reply (orgOverrides config resolvedOrg) = .ok overrides
  chain : evalExcept reply (orgChain config resolvedOrg) = .ok chain

/-- Everything but the role allows, and the role is forced. -/
def OnlyForcedRole (entitlement : String) (resource : Option ResourceRef) : Prop :=
  ∃ userId entDef resolvedOrg overrides chain,
    Resolves reply config entitlement resource userId entDef resolvedOrg overrides chain ∧
    evalExcept reply (checkFlags config entDef resolvedOrg chain) = .ok true ∧
    forcedRole reply config userId entDef entitlement resource ∧
    evalExcept reply (checkPlan config entitlement resolvedOrg overrides chain) = .ok true ∧
    evalExcept reply (checkLimits config entitlement resolvedOrg overrides chain) = .ok true

end Vertz.Spec

/-!
## A computed set against live checks

`StoreStates` is what the stores hold while a set is computed and checks
are made; `storeReplies` answers every call from it. `Agrees` compares an
entry of the set with the checks on the tenant and below it.

The set asks for any role anywhere (`HoldsRequired`), and it is to agree
with a check on everything else (`OnlyRoleMissing`). `SettledIn` is what the
subscriptions and limits must satisfy for that.
-/

namespace Vertz.Spec

open Vertz.Lib
open Vertz.Server.Auth

/-- The states of the stores, and what the two resolvers return. -/
structure StoreStates where
  orgs : ResourceRef → Option ResourceRef
  ancestors : ResourceRef → List AncestorChainEntry
  flags : ResourceRef → Record Bool
  subscriptions : ResourceRef → Option Subscription
  addOns : ResourceRef → Option (List String)
  wallets : InMemoryWalletStore

variable (config : ComputeAccessSetConfig) (states : StoreStates)

/-- Every call succeeds; there are no overrides and no plan versions. -/
def storeReplies : Replies
  | .orgResolver resource => .ok (resource.bind states.orgs)
  | .ancestorResolver tenantLevel tenantId => .ok (states.ancestors ⟨tenantLevel, tenantId⟩)
  | .getEffectiveRole userId type id => .ok
      (config.roleStore.getEffectiveRole userId ⟨type, id⟩ config.accessDef config.closureStore)
  | .getFlag type id flag => .ok (((states.flags ⟨type, id⟩).get? flag).getD false)
  | .getFlags type id => .ok (states.flags ⟨type, id⟩)
  | .getOverrides _ _ => .ok none
  | .getSubscription type id => .ok (states.subscriptions ⟨type, id⟩)
  | .getAddOns type id => .ok (states.addOns ⟨type, id⟩)
  | .getTenantVersion _ _ _ => .ok none
  | .getVersion _ _ => .ok none
  | .getConsumption wallet => .ok (states.wallets.getConsumption wallet)
  | .consume wallet limit amount => .ok (states.wallets.consume wallet limit amount).1
  | .unconsume _ _ => .ok ()

/-- The access context over the stores that the set is computed from. -/
def liveContext (mode : Option CloudFailMode) : AccessContextConfig where
  userId := config.userId
  accessDef := config.accessDef
  flagStore := config.flagStore
  subscriptionStore := config.subscriptionStore
  walletStore := config.walletStore
  overrideStore := false
  orgResolver := true
  planVersionStore := false
  cloudFailMode := mode
  tenantLevel := config.tenantLevel
  ancestorResolver := config.ancestorResolver
  now := config.now

def tenantOf (tenantId : String) : ResourceRef := ⟨config.tenantLevel.getD "tenant", tenantId⟩

/-- The tenant, or one of its descendants. -/
def UnderTenant (tenantId : String) (resource : ResourceRef) : Prop :=
  resource = tenantOf config tenantId
    ∨ config.closureStore.hasPath (tenantOf config tenantId) resource = true

/-- A resource of the tenant resolves to the tenant. -/
def ResolvesToTenant (tenantId : String) : Prop :=
  ∀ resource, UnderTenant config tenantId resource →
    states.orgs resource = some (tenantOf config tenantId)

/-- A live check of the entitlement on the resource allows. -/
def LiveAllows (mode : Option CloudFailMode) (entitlement : String) (resource : ResourceRef) :
    Prop :=
  CheckAllows (storeReplies config states) (liveContext config mode) entitlement (some resource)

/-- The computed entry allows the entitlement. -/
def SetAllows (entitlement : String) : Prop :=
  ∃ set entry, evalExcept (storeReplies config states) (computeAccessSet config) = .ok set ∧
    set.entitlements.get? entitlement = some entry ∧ entry.allowed = true

/-- The entry says what checks on the tenant and its descendants say. -/
def Agrees (mode : Option CloudFailMode) (tenantId entitlement : String) : Prop :=
  SetAllows config states entitlement ↔
    ∃ resource, UnderTenant config tenantId resource ∧
      LiveAllows config states mode entitlement resource

/-! ### What the set asks for -/

/-- On some resource, a role that the effective one is chosen from is
required. -/
def HoldsRequired (entDef : EntitlementDef) : Prop :=
  entDef.roles = [] ∨ ∃ userId resource role, present config.userId = some userId ∧
    role ∈ config.roleStore.candidateRoles userId resource config.accessDef config.closureStore ∧
    role ∈ entDef.roles

/-- A live check on the resource gives no reason to deny but a missing
role. -/
def OnlyRoleMissing (mode : Option CloudFailMode) (entitlement : String)
    (resource : ResourceRef) : Prop :=
  ∃ result, evalExcept (storeReplies config states)
      (check (liveContext config mode) entitlement (some resource)) = .ok result ∧
    ∀ reason ∈ result.reasons, reason = .roleRequired

/-! ### Subscriptions and limits -/

/-- The plan a subscription of a billing level gives. -/
def subscribedPlan (entry : AncestorChainEntry) : Option String :=
  (states.subscriptions ⟨entry.type, entry.id⟩).bind fun sub =>
    present (resolveEffectivePlan (some sub) config.accessDef.plans
      (config.accessDef.levelDefault entry.type) config.now)

/-- The level has plans and a subscription to one of them, or nothing at
all gives it features. -/
def LevelSettled (entry : AncestorChainEntry) : Prop :=
  ((config.accessDef.billingLevels.get? entry.type).getD [] ≠ [] ∧
      (subscribedPlan config states entry).isSome)
    ∨ (states.subscriptions ⟨entry.type, entry.id⟩ = none ∧
      config.accessDef.defaultPlans.bind (·.get? entry.type) = none ∧
      (states.addOns ⟨entry.type, entry.id⟩).getD [] = [])

/-- The ancestors of the tenant are above it, and of other types. -/
def ChainSettled (tenantLevel tenantId : String) : Prop :=
  ∀ entry ∈ states.ancestors ⟨tenantLevel, tenantId⟩, entry.depth ≠ 0 ∧ entry.type ≠ tenantLevel

/-- An entitlement that plans gate: every billing level is settled; a
tenant that is billed alone has a subscription to a plan. -/
def PlanSettled (tenantId entitlement : String) : Prop :=
  config.subscriptionStore = true → entitlement ∈ config.accessDef.planGatedEntitlements →
    match multiLevel config with
    | some (tenantLevel, tenantId) =>
      ChainSettled states tenantLevel tenantId ∧
      LevelSettled config states ⟨tenantLevel, tenantId, 0⟩ ∧
      ∀ entry ∈ states.ancestors ⟨tenantLevel, tenantId⟩, LevelSettled config states entry
    | none => ∃ sub, states.subscriptions (tenantOf config tenantId) = some sub ∧
        (present (resolveEffectivePlan (some sub) config.accessDef.plans
          config.accessDef.defaultPlan config.now)).isSome

/-- An entitlement under a limit: it is one limit, without overage, and
only the tenant itself has it. -/
def LimitSettled (entitlement : String) : Prop :=
  config.subscriptionStore = true → config.walletStore = true →
  ∀ limitKey ∈ config.accessDef.limitKeys entitlement,
    config.accessDef.limitKeys entitlement = [limitKey] ∧
    (∀ wallet, 0 ≤ states.wallets.getConsumption wallet) ∧
    (∀ planId plan limitDef, config.accessDef.plan? planId = some plan →
      plan.limit? limitKey = some limitDef → limitDef.overage = none) ∧
    match multiLevel config with
    | some (tenantLevel, tenantId) =>
      ChainSettled states tenantLevel tenantId ∧
      LevelSettled config states ⟨tenantLevel, tenantId, 0⟩ ∧
      ∀ entry ∈ states.ancestors ⟨tenantLevel, tenantId⟩, ∀ planId,
        subscribedPlan config states entry = some planId →
          (config.accessDef.plan? planId).bind (·.limit? limitKey) = none
    | none => True

/-- Plans and limits of the entitlement are read alike by the set and by a
check. -/
structure SettledIn (tenantId entitlement : String) : Prop where
  plan : PlanSettled config states tenantId entitlement
  limit : LimitSettled config states entitlement

end Vertz.Spec

/-!
## What a better role does to a user

`RbacAllows` is the role layer of a decision over an in-memory role store.
A `RoleChange` assigns another role, or replaces one by a role that is
earlier in the order of its entity. `KeepsAllowed` says that no change
takes an entitlement away, and `Upward` says it of the definition alone:
its entitlements and its inheritance go along with the orders of its
roles.
-/

namespace Vertz.Spec

open Vertz.Lib Vertz.Server.Auth

/-- The role store answers for the effective role; the role layer makes
no other call. -/
def roleReplies (accessDef : AccessDefinition) (store : InMemoryRoleAssignmentStore)
    (closureStore : InMemoryClosureStore) : Replies
  | .getEffectiveRole userId type id =>
    .ok (store.getEffectiveRole userId ⟨type, id⟩ accessDef closureStore)
  | _ => .error ⟨"not a call of the role store"⟩

/-- The role layer allows the entitlement on the resource. -/
def RbacAllows (config : AccessContextConfig) (closureStore : InMemoryClosureStore)
    (store : InMemoryRoleAssignmentStore) (userId entitlement : String)
    (resource : Option ResourceRef) : Prop :=
  ∃ entDef, config.accessDef.entitlements.get? entitlement = some entDef ∧
    evalExcept (roleReplies config.accessDef store closureStore)
      (checkRoles config userId entDef entitlement resource) = .ok true

/-- The first role is earlier in the order than the second. -/
def Earlier (roleOrder : List String) (better worse : String) : Prop :=
  worse ∈ roleOrder ∧ roleOrder.idxOf better < roleOrder.idxOf worse

inductive RoleChange where
  | assign (assignment : RoleAssignment)
  | replace (assignment : RoleAssignment) (role : String)

namespace RoleChange

def apply (store : InMemoryRoleAssignmentStore) : RoleChange → InMemoryRoleAssignmentStore
  | .assign assignment => store.assign assignment
  | .replace assignment role =>
    (store.revoke assignment).assign { assignment with role := role }

/-- A role is replaced by an earlier one of its entity. -/
def Improves (accessDef : AccessDefinition) : RoleChange → Prop
  | .assign _ => True
  | .replace assignment role => ∃ roleOrder,
      accessDef.roles.get? assignment.resource.type = some roleOrder ∧
        Earlier roleOrder role assignment.role

end RoleChange

/-- No change for the better takes an entitlement away, whatever the
closure table and the assignments. -/
def KeepsAllowed (config : AccessContextConfig) : Prop :=
  ∀ (closureStore : InMemoryClosureStore) (store : InMemoryRoleAssignmentStore)
    (change : RoleChange) (userId entitlement : String) (resource : Option ResourceRef),
    change.Improves config.accessDef →
    RbacAllows config closureStore store userId entitlement resource →
    RbacAllows config closureStore (change.apply store) userId entitlement resource

/-! ### The condition on the definition -/

/-- The role that another entity's role comes to, if any. -/
def inheritedRole (accessDef : AccessDefinition) (sourceType sourceRole targetType : String) :
    Option String :=
  present (resolveInheritedRole sourceType sourceRole targetType accessDef)

/-- A user with the role on a resource of the type has the entitlement. -/
def Grants (accessDef : AccessDefinition) (entitlement : String) (entDef : EntitlementDef)
    (type role : String) : Prop :=
  role ≠ "" ∧
    if type ≠ entitlementEntity entitlement then
      ∃ inherited ∈ entDef.roles,
        inheritedRole accessDef type role (entitlementEntity entitlement) = some inherited
    else role ∈ entDef.roles

/-- The entitlement is granted to the earlier roles of each type if to a
later one, and to what they are inherited as. -/
structure Upward (accessDef : AccessDefinition) : Prop where
  earlier : ∀ entitlement entDef, accessDef.entitlements.get? entitlement = some entDef →
    entDef.roles ≠ [] → ∀ type roleOrder, accessDef.roles.get? type = some roleOrder →
    ∀ better worse, Earlier roleOrder better worse →
      Grants accessDef entitlement entDef type worse →
      Grants accessDef entitlement entDef type better
  inherited : ∀ entitlement entDef, accessDef.entitlements.get? entitlement = some entDef →
    entDef.roles ≠ [] → ∀ type roleOrder, accessDef.roles.get? type = some roleOrder →
    ∀ source sourceOrder, accessDef.roles.get? source = some sourceOrder →
    ∀ better worse, Earlier sourceOrder better worse →
    ∀ role ∈ roleOrder, inheritedRole accessDef source worse type = some role →
      Grants accessDef entitlement entDef type role →
      ∃ role' ∈ roleOrder, inheritedRole accessDef source better type = some role' ∧
        Grants accessDef entitlement entDef type role'

end Vertz.Spec
