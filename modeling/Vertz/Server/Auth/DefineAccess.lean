import Mathlib.Algebra.Order.Ring.Rat
import Vertz.Lib.Record
import Vertz.Server.Auth.BillingPeriod

/-!
# `Vertz.Server.Auth.DefineAccess`: the access definition and what the stores hold

The frozen configuration the access context reads, and the records its
stores return. A JavaScript number is a rational: the arithmetic on counts
and prices is exact.
-/

namespace Vertz.Server.Auth

open Vertz.Lib

/-- An empty string is falsy, and is treated as a missing one. -/
def present (s : Option String) : Option String := s.filter (· ≠ "")

/-! ### The access definition -/

inductive DenialReason where
  | planRequired
  | roleRequired
  | limitReached
  | flagDisabled
  | hierarchyDenied
  | stepUpRequired
  | notAuthenticated
  deriving DecidableEq, Repr

/-- Price for usage past a limit: `amount` for every `per` units, up to
`cap` a period. -/
structure OverageConfig where
  amount : ℚ
  per : ℚ
  cap : Option ℚ
  deriving DecidableEq

structure LimitDef where
  max : ℚ
  per : Option BillingPeriod
  overage : Option OverageConfig
  deriving DecidableEq

structure PlanDef where
  features : Option (List String)
  limits : Option (Record LimitDef)

inductive FeatureResolution where
  | inherit
  | local
  deriving DecidableEq, Repr

structure EntitlementDef where
  roles : List String
  flags : Option (List String)
  featureResolution : Option FeatureResolution
  deriving DecidableEq

structure AccessDefinition where
  hierarchy : List String
  inheritance : Record (Record String)
  entitlements : Record EntitlementDef
  plans : Option (Record PlanDef)
  defaultPlan : Option String
  defaultPlans : Option (Record String)
  planGatedEntitlements : List String
  entitlementToLimitKeys : Record (List String)
  /-- The roles of each entity, the most permissive first. -/
  roles : Record (List String) := .empty
  /-- The plans of each billing level. -/
  billingLevels : Record (List String) := .empty

namespace AccessDefinition

def plan? (accessDef : AccessDefinition) (planId : String) : Option PlanDef :=
  accessDef.plans.bind (·.get? planId)

/-- The default plan of a billing level, or the global one. -/
def levelDefault (accessDef : AccessDefinition) (type : String) : Option String :=
  (accessDef.defaultPlans.bind (·.get? type)).or accessDef.defaultPlan

def limitKeys (accessDef : AccessDefinition) (entitlement : String) : List String :=
  (accessDef.entitlementToLimitKeys.get? entitlement).getD []

end AccessDefinition

def PlanDef.limit? (plan : PlanDef) (limitKey : String) : Option LimitDef :=
  plan.limits.bind (·.get? limitKey)

/-- Whether a list of features that may be missing has the entitlement. -/
def featuresInclude (features : Option (List String)) (entitlement : String) : Bool :=
  match features with
  | some features => features.contains entitlement
  | none => false

/-! ### What the stores hold -/

structure Subscription where
  planId : String
  startedAt : ℤ
  expiresAt : Option ℤ
  /-- Limit overrides of the plan assignment, by limit key. -/
  overrides : Record ℚ

structure LimitOverrideDef where
  add : Option ℚ
  max : Option ℚ
  deriving DecidableEq

structure TenantOverrides where
  features : Option (List String)
  limits : Option (Record LimitOverrideDef)

structure PlanSnapshot where
  features : List String
  /-- A snapshot is read back untyped: a limit in it may be missing. -/
  limits : Record (Option LimitDef)

structure ResourceRef where
  type : String
  id : String
  deriving DecidableEq, Repr

structure AncestorChainEntry where
  type : String
  id : String
  depth : ℤ
  deriving DecidableEq, Repr

/-- The plan a subscription gives. One that expired gives the default plan
if there is one of that name. -/
def resolveEffectivePlan (subscription : Option Subscription) (plans : Option (Record PlanDef))
    (defaultPlan : Option String) (now : ℤ) : Option String :=
  match subscription with
  | none => none
  | some subscription =>
    let fallback := defaultPlan.getD "free"
    let expired := match subscription.expiresAt with
      | some expiresAt => decide (expiresAt < now)
      | none => false
    if expired then
      if ((plans.bind (·.get? fallback)).isSome) then some fallback else none
    else if ((plans.bind (·.get? subscription.planId)).isSome) then some subscription.planId
    else none

/-- Walk the inheritance from a role on one entity down to another. -/
def resolveInheritedRole (sourceType sourceRole targetType : String)
    (accessDef : AccessDefinition) : Option String :=
  let sourceIdx := accessDef.hierarchy.findIdx? (· = sourceType)
  let targetIdx := accessDef.hierarchy.findIdx? (· = targetType)
  match sourceIdx, targetIdx with
  | some sourceIdx, some targetIdx =>
    if sourceIdx ≥ targetIdx then none
    else ((accessDef.hierarchy.drop sourceIdx).take (targetIdx - sourceIdx)).foldlM
      (fun currentRole currentType =>
        (accessDef.inheritance.get? currentType).bind (·.get? currentRole)) sourceRole
  | _, _ => none

end Vertz.Server.Auth
