import Vertz.Proofs.SetPlans

/-!
# `Vertz.Proofs.LiveChecks`: a live check over given stores

`check` with the stores of a computed set. No call fails, so each layer
adds its reason or does not:

* `flagsForCheck_reasons`, `rolesForCheck_reasons`,
  `planForCheck_reasons`, `limitsForCheck_reasons`: when a layer adds its
  reason.
* `check_reasons`: the reasons of a check on a resource of the tenant.
-/

namespace Vertz.Proofs

open Option hiding any_eq_true
open Vertz.Lib
open Vertz.Server.Auth
open Vertz.Spec List

variable {config : ComputeAccessSetConfig} {states : StoreStates} {mode : Option CloudFailMode}

@[simp] theorem liveContext_accessDef :
    (liveContext config mode).accessDef = config.accessDef := rfl

@[simp] theorem liveContext_now : (liveContext config mode).now = config.now := rfl

/-- The layer adds the reason unless the statement holds. -/
def Adds (reply : Replies) (layer : StoreM Denials) (denials : Denials) (reason : DenialReason)
    (passes : Prop) : Prop :=
  ∃ denials', evalExcept reply layer = .ok denials' ∧
    ((passes ∧ denials'.reasons = denials.reasons)
      ∨ (¬ passes ∧ denials'.reasons = denials.reasons ++ [reason]))

/-- The reasons after a layer. -/
theorem Adds.mem {reply : Replies} {layer : StoreM Denials} {denials : Denials}
    {reason : DenialReason} {passes : Prop} (h : Adds reply layer denials reason passes) :
    ∃ denials', evalExcept reply layer = .ok denials' ∧ ∀ r, r ∈ denials'.reasons ↔
      r ∈ denials.reasons ∨ (r = reason ∧ ¬ passes) := by
  obtain ⟨denials', heval, hreasons⟩ := h
  refine ⟨denials', heval, fun r => ?_⟩
  rcases hreasons with ⟨hpasses, heq⟩ | ⟨hfails, heq⟩
  · simp [heq, hpasses]
  · simp [heq, hfails]

/-! ### Flags -/

theorem collectDisabled_eval {reply : Replies} {enabled : String → StoreM Bool}
    {on : String → Bool} (h : ∀ flag, evalExcept reply (enabled flag) = .ok (on flag))
    (flags : List String) :
    evalExcept reply (collectDisabled enabled flags) = .ok (flags.filter fun flag => !on flag) := by
  induction flags with
  | nil => rfl
  | cons flag flags ih =>
    unfold collectDisabled
    simp only [evalExcept_bind, h, ih, ok_bind, evalExcept_pure]
    cases hon : on flag <;> simp [hon]

/-- A layer that denies for the flags that are off. -/
theorem collectDisabled_adds {reply : Replies} {enabled : String → StoreM Bool}
    {on : String → Bool} (h : ∀ flag, evalExcept reply (enabled flag) = .ok (on flag))
    (flags : List String) {denials : Denials} {deny : List String → Denials}
    (hdeny : ∀ disabled, (deny disabled).reasons = denials.reasons ++ [.flagDisabled]) :
    Adds reply (do
        let disabledFlags ← collectDisabled enabled flags
        return if disabledFlags.isEmpty then denials else deny disabledFlags)
      denials .flagDisabled (flags.all on = true) := by
  have hempty : (flags.filter fun flag => !on flag).isEmpty = true ↔ flags.all on = true := by
    rw [List.isEmpty_iff, List.filter_eq_nil_iff, List.all_eq_true]
    simp
  refine ⟨if (flags.filter fun flag => !on flag).isEmpty then denials
    else deny (flags.filter fun flag => !on flag), ?_, ?_⟩
  · rw [evalExcept_bind, collectDisabled_eval h]
    rfl
  · rw [← hempty]
    split
    · next hnone => exact .inl ⟨hnone, rfl⟩
    · next hsome => exact .inr ⟨hsome, hdeny _⟩

theorem resolveMultiLevelFlag_eval (chain : List AncestorChainEntry) (flag : String) :
    evalExcept (storeReplies config states) (resolveMultiLevelFlag flag chain)
      = .ok ((chain.findSome? fun entry =>
          (states.flags ⟨entry.type, entry.id⟩).get? flag).getD false) := by
  induction chain with
  | nil => rfl
  | cons entry chain ih =>
    unfold resolveMultiLevelFlag
    rw [findSome?_cons]
    have hread : storeReplies config states (.getFlags entry.type entry.id) =
      .ok (states.flags ⟨entry.type, entry.id⟩) := rfl
    rw [eval_await_bind hread]
    cases hflag : (states.flags ⟨entry.type, entry.id⟩).get? flag with
    | none => exact ih
    | some enabled => rfl

/-- The ancestor chain of a check on the tenant. -/
def liveChain (config : ComputeAccessSetConfig) (states : StoreStates) :
    Option (List AncestorChainEntry) :=
  (multiLevel config).map fun level => chainOf states level.1 level.2

theorem flagsForCheck_reasons {tenantId : String} (entDef : EntitlementDef) (denials : Denials) :
    Adds (storeReplies config states) (checkFlagsForCheck (liveContext config mode) entDef
        (some (tenantOf config tenantId)) (liveChain config states) denials) denials .flagDisabled
      (flagsOn config states tenantId entDef = true) := by
  unfold checkFlagsForCheck flagsOn liveContext
  cases hstore : config.flagStore with
  | false => exact ⟨denials, by cases entDef.flags.getD [] <;> rfl, .inl ⟨rfl, rfl⟩⟩
  | true =>
    cases hflags : entDef.flags.getD [] with
    | nil => exact ⟨denials, rfl, .inl ⟨rfl, rfl⟩⟩
    | cons flag flags =>
      have hon : ∀ on : String → Bool, (!true || (flag :: flags).all on)
          = (flag :: flags).all on := fun on => Bool.false_or _
      unfold liveChain
      rw [hon]
      cases hmulti : multiLevel config with
      | none =>
        refine collectDisabled_adds (fun flag => ?_) _ fun disabled => rfl
        simp only [flagOn, hmulti]
        rfl
      | some level =>
        refine collectDisabled_adds (fun flag => ?_) _ fun disabled => rfl
        simp only [flagOn, hmulti]
        exact resolveMultiLevelFlag_eval _ flag

/-! ### Roles -/

/-- The role layer finds a role; on a resource of the type of the
entitlement it is one of the candidates. -/
theorem hasRoleForCheck_eval (userId : String) (entDef : EntitlementDef) (entitlement : String)
    (resource : ResourceRef) :
    ∃ has, evalExcept (storeReplies config states) (hasRoleForCheck (liveContext config mode)
        userId entDef entitlement (some resource)) = .ok has ∧
      (has = true → resource.type = entitlementEntity entitlement → ∃ role ∈ entDef.roles,
        role ∈ config.roleStore.candidateRoles userId resource config.accessDef
          config.closureStore) := by
  unfold hasRoleForCheck
  have hread : storeReplies config states (.getEffectiveRole userId resource.type resource.id) =
    .ok (config.roleStore.getEffectiveRole userId resource config.accessDef config.closureStore) :=
    rfl
  dsimp only
  rw [eval_await_bind hread]
  cases hrole : present (config.roleStore.getEffectiveRole userId resource config.accessDef
      config.closureStore) with
  | none => exact ⟨false, rfl, fun h => by cases h⟩
  | some role =>
    refine ⟨_, rfl, fun h htype => ?_⟩
    obtain ⟨heffective, -⟩ := present_eq_some.mp hrole
    obtain ⟨_, _, _, hcandidate, _⟩ :=
      InMemoryRoleAssignmentStore.getEffectiveRole_iff.mp heffective
    refine ⟨role, ?_, hcandidate⟩
    simpa [htype] using h

theorem rolesForCheck_reasons (userId : String) (entDef : EntitlementDef) (entitlement : String)
    (resource : ResourceRef) (denials : Denials) :
    ∃ hasRole : Prop, Adds (storeReplies config states) (checkRolesForCheck
        (liveContext config mode) userId entDef entitlement (some resource) denials) denials
        .roleRequired hasRole ∧
      (hasRole → resource.type = entitlementEntity entitlement → entDef.roles = [] ∨
        ∃ role ∈ entDef.roles, role ∈ config.roleStore.candidateRoles userId resource
          config.accessDef config.closureStore) := by
  unfold checkRolesForCheck
  by_cases hroles : entDef.roles = []
  · refine ⟨True, ⟨denials, ?_, .inl ⟨trivial, rfl⟩⟩, fun _ _ => .inl hroles⟩
    rw [if_pos (by simp [hroles])]
    rfl
  · obtain ⟨has, heval, hhas⟩ := @hasRoleForCheck_eval config states mode userId entDef
      entitlement resource
    rw [if_neg (by simpa using hroles)]
    refine ⟨has = true, ?_, fun h htype => .inr (hhas h htype)⟩
    unfold Adds
    rw [evalExcept_bind, heval]
    cases has with
    | true => exact ⟨denials, rfl, .inl ⟨rfl, rfl⟩⟩
    | false => exact ⟨_, rfl, .inr ⟨by simp, rfl⟩⟩

/-! ### Plans -/

/-- The plan or an add-on of the resource has the feature. -/
def HasFeature (config : ComputeAccessSetConfig) (states : StoreStates) (resource : ResourceRef)
    (planId name : String) : Prop :=
  name ∈ featuresOf config planId ++ addOnFeatures config (states.addOns resource)

theorem featuresInclude_iff (planId name : String) :
    featuresInclude ((config.accessDef.plan? planId).bind PlanDef.features) name = true
      ↔ name ∈ featuresOf config planId := by
  unfold featuresInclude featuresOf
  cases (config.accessDef.plan? planId).bind PlanDef.features <;> simp

theorem addOnsInclude_eval (resource : ResourceRef) (name : String) :
    ∃ has, evalExcept (storeReplies config states)
        (addOnsInclude (liveContext config mode) resource name) = .ok has ∧
      (has = true ↔ name ∈ addOnFeatures config (states.addOns resource)) := by
  unfold addOnsInclude addOnFeatures
  simp only [evalExcept_bind, evalExcept_await, storeReplies]
  cases haddOns : states.addOns resource with
  | none => exact ⟨false, rfl, by simp⟩
  | some addOns =>
    refine ⟨_, rfl, ?_⟩
    rw [any_eq_true, getD_some, mem_flatMap]
    refine exists_congr fun addOnId => and_congr_right fun _ => ?_
    rw [← featuresInclude_iff]
    cases hplan : config.accessDef.plan? addOnId <;> simp [featuresInclude, hplan]

theorem resolveEffectiveFeatures_eval (resource : ResourceRef) (name planId : String) :
    ∃ has, evalExcept (storeReplies config states)
        (resolveEffectiveFeatures (liveContext config mode) resource name planId none) = .ok has ∧
      (has = true ↔ HasFeature config states resource planId name) := by
  obtain ⟨has, heval, hhas⟩ := @addOnsInclude_eval config states mode resource name
  unfold HasFeature
  rw [mem_append, ← hhas, ← featuresInclude_iff]
  show ∃ has, evalExcept (storeReplies config states) (if featuresInclude
      ((config.accessDef.plan? planId).bind PlanDef.features) name then pure true
    else addOnsInclude (liveContext config mode) resource name >>= fun included =>
      if included then pure true else pure (featuresInclude none name)) = _ ∧ _
  cases featuresInclude ((config.accessDef.plan? planId).bind PlanDef.features) name with
  | true => exact ⟨true, rfl, by simp⟩
  | false =>
    refine ⟨has, ?_, by simp⟩
    rw [if_neg (by simp), evalExcept_bind, heval]
    cases has <;> rfl

/-- The feature at one of the levels. -/
def LevelHasFeature (config : ComputeAccessSetConfig) (states : StoreStates) (name : String)
    (entDef : EntitlementDef) (entry : AncestorChainEntry) : Prop :=
  CountsAt entDef entry ∧ ∃ planId, subscribedPlan config states entry = some planId ∧
    HasFeature config states ⟨entry.type, entry.id⟩ planId name

theorem resolveMultiLevelFeature_eval {name : String} {entDef : EntitlementDef}
    (hent : config.accessDef.entitlements.get? name = some entDef)
    (chain : List AncestorChainEntry) :
    ∃ has, evalExcept (storeReplies config states)
        (resolveMultiLevelFeature (liveContext config mode) name chain) = .ok has ∧
      (has = true ↔ ∃ entry ∈ chain, LevelHasFeature config states name entDef entry) := by
  induction chain with
  | nil => exact ⟨false, rfl, by simp⟩
  | cons entry chain ih =>
    obtain ⟨rest, hrest, hiff⟩ := ih
    have hresolution : (((liveContext config mode).accessDef.entitlements.get? name).bind
        EntitlementDef.featureResolution).getD .inherit
          = entDef.featureResolution.getD .inherit := by
      simp [liveContext, hent]
    -- a level that does not have it leaves it to the ones above
    have hskip : ¬ LevelHasFeature config states name entDef entry →
        (rest = true ↔ ∃ e ∈ entry :: chain, LevelHasFeature config states name entDef e) := by
      intro hnot
      rw [hiff, exists_mem_cons_iff, or_iff_right hnot]
    unfold resolveMultiLevelFeature
    simp only [hresolution]
    by_cases hlocal : entDef.featureResolution.getD .inherit = .local ∧ entry.depth ≠ 0
    · rw [if_pos hlocal]
      exact ⟨rest, hrest, hskip fun h => hlocal.2 (h.1 hlocal.1)⟩
    · rw [if_neg hlocal]
      have hread : storeReplies config states (.getSubscription entry.type entry.id) =
        .ok (states.subscriptions ⟨entry.type, entry.id⟩) := rfl
      have hdef : (liveContext config mode).accessDef = config.accessDef := rfl
      have hnow : (liveContext config mode).now = config.now := rfl
      rw [eval_await_bind hread, hdef, hnow]
      have hplan : subscribedPlan config states entry
          = present (resolveEffectivePlan (states.subscriptions ⟨entry.type, entry.id⟩)
            config.accessDef.plans (config.accessDef.levelDefault entry.type) config.now) := by
        unfold subscribedPlan
        cases states.subscriptions ⟨entry.type, entry.id⟩ <;> rfl
      cases hfound : present (resolveEffectivePlan (states.subscriptions ⟨entry.type, entry.id⟩)
          config.accessDef.plans (config.accessDef.levelDefault entry.type) config.now) with
      | none =>
        refine ⟨rest, hrest, hskip fun h => ?_⟩
        obtain ⟨-, planId, hsome, -⟩ := h
        rw [hplan, hfound] at hsome
        cases hsome
      | some planId =>
        obtain ⟨has, hhas, hfeature⟩ := @resolveEffectiveFeatures_eval config states mode
          ⟨entry.type, entry.id⟩ name planId
        cases has with
        | true =>
          refine ⟨true, ?_, ?_⟩
          · show evalExcept _ (resolveEffectiveFeatures _ _ _ _ none >>= _) = _
            simp only [evalExcept_bind, hhas]
            rfl
          · have hhere : LevelHasFeature config states name entDef entry :=
              ⟨fun h => not_not.mp fun hdepth => hlocal ⟨h, hdepth⟩, planId,
                hplan.trans hfound, hfeature.mp rfl⟩
            exact iff_of_true rfl ⟨entry, mem_cons_self, hhere⟩
        | false =>
          refine ⟨rest, ?_, hskip fun h => ?_⟩
          · show evalExcept _ (resolveEffectiveFeatures _ _ _ _ none >>= _) = _
            simp only [evalExcept_bind, hhas]
            exact hrest
          · obtain ⟨-, planId', hsome, hin⟩ := h
            rw [hplan, hfound, Option.some.injEq] at hsome
            subst hsome
            exact Bool.noConfusion (hfeature.mpr hin)

/-- The plan of the tenant has the feature, as a check finds it. -/
def PlanHas (config : ComputeAccessSetConfig) (states : StoreStates) (tenantId name : String)
    (entDef : EntitlementDef) : Prop :=
  match multiLevel config with
  | some level => ∃ entry ∈ chainOf states level.1 level.2,
      LevelHasFeature config states name entDef entry
  | none => ∃ sub planId, states.subscriptions (tenantOf config tenantId) = some sub ∧
      present (resolveEffectivePlan (some sub) config.accessDef.plans
        config.accessDef.defaultPlan config.now) = some planId ∧
      HasFeature config states (tenantOf config tenantId) planId name

theorem planDenied_eval {tenantId name : String} {entDef : EntitlementDef}
    (hent : config.accessDef.entitlements.get? name = some entDef) :
    ∃ denied, evalExcept (storeReplies config states) (planDeniedForCheck
        (liveContext config mode) name (some (tenantOf config tenantId)) none
        (liveChain config states)) = .ok denied ∧
      (denied = false ↔ PlanHas config states tenantId name entDef) := by
  unfold planDeniedForCheck liveChain PlanHas
  cases hmulti : multiLevel config with
  | some level =>
    obtain ⟨has, heval, hiff⟩ := @resolveMultiLevelFeature_eval config states mode name entDef
      hent (chainOf states level.1 level.2)
    refine ⟨!has, ?_, Iff.trans (by simp) hiff⟩
    simp only [map_some, evalExcept_bind, heval]
    rfl
  | none =>
    have hread : storeReplies config states (.getSubscription (tenantOf config tenantId).type
      (tenantOf config tenantId).id) = .ok (states.subscriptions (tenantOf config tenantId)) := rfl
    have hdef : (liveContext config mode).accessDef = config.accessDef := rfl
    have hnow : (liveContext config mode).now = config.now := rfl
    rw [map_none]
    dsimp only
    rw [eval_await_bind hread, hdef, hnow]
    cases hsub : states.subscriptions (tenantOf config tenantId) with
    | none => exact ⟨true, rfl, by simp⟩
    | some sub =>
      cases hplan : present (resolveEffectivePlan (some sub) config.accessDef.plans
          config.accessDef.defaultPlan config.now) with
      | none => exact ⟨true, rfl, by simp [hplan]⟩
      | some planId =>
        obtain ⟨has, heval, hiff⟩ := @resolveEffectiveFeatures_eval config states mode
          (tenantOf config tenantId) name planId
        refine ⟨!has, ?_, ?_⟩
        · simp only [evalExcept_bind, heval]
          rfl
        · simpa [hplan] using hiff

theorem planForCheck_reasons {tenantId name : String} {entDef : EntitlementDef}
    (hent : config.accessDef.entitlements.get? name = some entDef) (denials : Denials) :
    Adds (storeReplies config states) (checkPlanForCheck (liveContext config mode) name
        (some (tenantOf config tenantId)) none (liveChain config states) denials) denials
      .planRequired (config.subscriptionStore = true →
        name ∈ config.accessDef.planGatedEntitlements →
        PlanHas config states tenantId name entDef) := by
  unfold checkPlanForCheck
  by_cases hgated : config.subscriptionStore = true ∧ name ∈ config.accessDef.planGatedEntitlements
  · obtain ⟨hstore, hmem⟩ := hgated
    obtain ⟨denied, heval, hiff⟩ := @planDenied_eval config states mode tenantId name entDef hent
    unfold Adds
    simp only [hstore, hmem, forall_const, ← hiff]
    rw [if_pos (by simp [liveContext, hstore, hmem]), evalExcept_bind, heval]
    cases denied with
    | true => exact ⟨_, rfl, .inr ⟨by simp, rfl⟩⟩
    | false => exact ⟨_, rfl, .inl ⟨rfl, rfl⟩⟩
  · rw [if_neg ?_]
    · exact ⟨denials, rfl, .inl ⟨fun hstore hmem => absurd ⟨hstore, hmem⟩ hgated, rfl⟩⟩
    · intro h
      simp only [liveContext, Bool.and_true, Bool.and_eq_true, contains_iff_mem] at h
      exact hgated ⟨h.2, h.1⟩

/-! ### Limits -/

/-- One limit without overage: there is room under it, or it has no
bound. -/
theorem checkLimitStates_single {ws : LimitState} (hoverage : ws.overage = none)
    (hconsumed : ws.max ≠ -1 → 0 ≤ ws.consumed) :
    checkLimitStates [ws] = true ↔ (ws.max ≠ -1 → ws.consumed < ws.max) := by
  unfold checkLimitStates
  by_cases hunlimited : ws.max = -1
  · simp [hunlimited, checkLimitStates]
  · have hnonneg := hconsumed hunlimited
    by_cases hzero : ws.max = 0
    · simp [hzero, hnonneg]
    · by_cases hover : ws.consumed ≥ ws.max
      · simp [hzero, hunlimited, hover, hoverage]
      · simp [hzero, hunlimited, hover, checkLimitStates, not_le.mp hover]

/-- The one limit of an entitlement, under the plan that is subscribed
to. -/
theorem limitStates_eval {resource : ResourceRef} {name limitKey planId : String}
    {sub : Subscription} {planDef : PlanDef}
    (hkeys : config.accessDef.limitKeys name = [limitKey])
    (hplan : config.accessDef.plan? planId = some planDef)
    (hwallets : ∀ wallet, 0 ≤ states.wallets.getConsumption wallet)
    (hoverage : ∀ limitDef, planDef.limit? limitKey = some limitDef → limitDef.overage = none) :
    ∃ walletStates, evalExcept (storeReplies config states) (limitStates (liveContext config mode)
        resource sub planId none none [limitKey]) = .ok walletStates ∧
      (checkLimitStates walletStates = true ↔ LimitFree config states resource
        ⟨planDef, states.addOns resource, some sub.overrides, sub.startedAt⟩ name) := by
  have hdef : limitDefOf (liveContext config mode) none planId limitKey
      = planDef.limit? limitKey := by
    simp [limitDefOf, hplan]
  unfold limitStates LimitFree limitOf
  rw [hdef, hkeys]
  cases hlimit : planDef.limit? limitKey with
  | none => exact ⟨[], rfl, by simp [hlimit, checkLimitStates]⟩
  | some limitDef =>
    let source : LimitSource :=
      ⟨planDef, states.addOns resource, some sub.overrides, sub.startedAt⟩
    have hmax : evalExcept (storeReplies config states) (computeEffectiveLimit
        (liveContext config mode) limitDef.max limitKey resource sub none)
        = .ok (effectiveMaxOf config source limitKey limitDef) := by
      show Except.ok (applyLimitOverrides limitKey sub none _) = _
      unfold applyLimitOverrides effectiveMaxOf
      cases hoverride : sub.overrides.get? limitKey <;> simp [source, hoverride]
    simp only [evalExcept_bind, hmax, hlimit, Option.some.injEq, forall_eq', consumedOf]
    generalize effectiveMaxOf config source limitKey limitDef = effectiveMax
    by_cases hunlimited : effectiveMax = -1
    · subst hunlimited
      exact ⟨[⟨limitKey, -1, 0, limitDef.overage⟩], rfl, by simp [checkLimitStates]⟩
    · refine ⟨[⟨limitKey, effectiveMax, states.wallets.getConsumption (walletOf resource limitKey
        (limitPeriod (liveContext config mode) sub limitDef)), limitDef.overage⟩], ?_, ?_⟩
      · simp only [ok_bind, if_neg hunlimited]
        rfl
      · exact checkLimitStates_single (hoverage limitDef hlimit) fun _ => hwallets _

theorem exists_plan {sub : Option Subscription} {defaultPlan : Option String} {planId : String}
    (h : present (resolveEffectivePlan sub config.accessDef.plans defaultPlan config.now)
      = some planId) : ∃ planDef, config.accessDef.plan? planId = some planDef := by
  obtain ⟨h, -⟩ := present_eq_some.mp h
  rw [← isSome_iff_exists]
  unfold resolveEffectivePlan at h
  cases sub with
  | none => cases h
  | some sub =>
    simp only [ite_eq_iff, reduceCtorEq, and_false, or_false, Option.some.injEq] at h
    rcases h with ⟨-, hplan, rfl⟩ | ⟨-, hplan, rfl⟩
    · exact hplan
    · exact hplan

/-- The limits of one level, under the plan that is subscribed to. -/
theorem resolveAllLimitStates_eval {resource : ResourceRef} {name limitKey planId : String}
    {sub : Subscription} {planDef : PlanDef} {levelDefault : Option String}
    (hsub : states.subscriptions resource = some sub)
    (hresolved : present (resolveEffectivePlan (some sub) config.accessDef.plans
      (levelDefault.or config.accessDef.defaultPlan) config.now) = some planId)
    (hkeys : config.accessDef.limitKeys name = [limitKey])
    (hplan : config.accessDef.plan? planId = some planDef)
    (hwallets : ∀ wallet, 0 ≤ states.wallets.getConsumption wallet)
    (hoverage : ∀ limitDef, planDef.limit? limitKey = some limitDef → limitDef.overage = none) :
    ∃ walletStates, evalExcept (storeReplies config states) (resolveAllLimitStates
        (liveContext config mode) name resource none levelDefault) = .ok walletStates ∧
      (checkLimitStates walletStates = true ↔ LimitFree config states resource
        ⟨planDef, states.addOns resource, some sub.overrides, sub.startedAt⟩ name) := by
  obtain ⟨walletStates, heval, hiff⟩ := @limitStates_eval config states mode resource name limitKey
    planId sub planDef hkeys hplan hwallets hoverage
  refine ⟨walletStates, ?_, hiff⟩
  rw [← heval]
  refine (@eval_await_bind _ _ (.getSubscription resource.type resource.id)
    (states.subscriptions resource) rfl _).trans ?_
  simp only [hsub, liveContext_accessDef, liveContext_now, hresolved, hkeys]
  rfl

theorem resolveAllLimitStates_none {resource : ResourceRef} {name : String}
    (h : subscribed config states resource = none) :
    evalExcept (storeReplies config states) (resolveAllLimitStates
        (liveContext config mode) name resource none none) = .ok [] := by
  refine (@eval_await_bind _ _ (.getSubscription resource.type resource.id)
    (states.subscriptions resource) rfl _).trans ?_
  unfold subscribed at h
  cases hsub : states.subscriptions resource with
  | none => rfl
  | some sub =>
    cases hresolved : present (resolveEffectivePlan (some sub) config.accessDef.plans
        config.accessDef.defaultPlan config.now) with
    | none =>
      simp only [liveContext_accessDef, liveContext_now, none_or, hresolved]
      rfl
    | some planId =>
      obtain ⟨planDef, hplan⟩ := exists_plan hresolved
      simp only [hsub, bind_some, hresolved, hplan, map_some] at h
      cases h

/-- The limits of a tenant that is billed alone, as the set reads them. -/
theorem singleLimits_eval {tenantId name limitKey : String}
    (hkeys : config.accessDef.limitKeys name = [limitKey])
    (hwallets : ∀ wallet, 0 ≤ states.wallets.getConsumption wallet)
    (hoverage : ∀ planId plan limitDef, config.accessDef.plan? planId = some plan →
      plan.limit? limitKey = some limitDef → limitDef.overage = none) :
    ∃ free, evalExcept (storeReplies config states) (do
        let walletStates ← resolveAllLimitStates (liveContext config mode) name
          (tenantOf config tenantId) none none
        return checkLimitStates walletStates) = .ok free ∧
      (free = true ↔ ∀ sub planDef,
        subscribed config states (tenantOf config tenantId) = some (sub, planDef) →
          LimitFree config states (tenantOf config tenantId) ⟨planDef,
            states.addOns (tenantOf config tenantId), some sub.overrides, sub.startedAt⟩ name) := by
  rw [evalExcept_bind]
  cases hsubscribed : subscribed config states (tenantOf config tenantId) with
  | none =>
    rw [resolveAllLimitStates_none hsubscribed]
    exact ⟨true, rfl, by simp⟩
  | some found =>
    obtain ⟨sub, planDef⟩ := found
    obtain ⟨sub', hsub, hplan⟩ := bind_eq_some_iff.mp hsubscribed
    obtain ⟨planDef', hplan, hpair⟩ := map_eq_some_iff.mp hplan
    cases hpair
    obtain ⟨planId, hresolved, hplan⟩ := bind_eq_some_iff.mp hplan
    obtain ⟨walletStates, heval, hiff⟩ := @resolveAllLimitStates_eval config states mode
      (tenantOf config tenantId) name limitKey planId sub planDef none hsub hresolved hkeys hplan
      hwallets fun limitDef => hoverage planId planDef limitDef hplan
    rw [heval]
    exact ⟨checkLimitStates walletStates, rfl, by simp [hiff]⟩

theorem planLimits_eq {name limitKey : String}
    (hkeys : config.accessDef.limitKeys name = [limitKey]) (planId : String) :
    planLimits (liveContext config mode) planId name
      = ((config.accessDef.plan? planId).bind (·.limit? limitKey)).isSome := by
  unfold planLimits PlanDef.limit?
  rw [liveContext_accessDef, hkeys]
  cases config.accessDef.plan? planId with
  | none => rfl
  | some planDef => cases hlimits : planDef.limits <;> simp [hlimits]

/-- Levels whose plans do not limit the entitlement. -/
theorem unlimitedLevels_eval {name limitKey : String}
    (hkeys : config.accessDef.limitKeys name = [limitKey]) {chain : List AncestorChainEntry}
    (h : ∀ entry ∈ chain, ∀ planId, subscribedPlan config states entry = some planId →
      (config.accessDef.plan? planId).bind (·.limit? limitKey) = none) :
    evalExcept (storeReplies config states)
      (checkMultiLevelLimits (liveContext config mode) name chain) = .ok true := by
  induction chain with
  | nil => rfl
  | cons entry chain ih =>
    have hrest := ih fun e he => h e (mem_cons_of_mem entry he)
    have hhere := h entry mem_cons_self
    refine (@eval_await_bind _ _ (.getSubscription entry.type entry.id)
      (states.subscriptions ⟨entry.type, entry.id⟩) rfl _).trans ?_
    unfold subscribedPlan at hhere
    cases hsub : states.subscriptions ⟨entry.type, entry.id⟩ with
    | none => exact hrest
    | some sub =>
      simp only [hsub, bind_some] at hhere
      simp only [liveContext_accessDef, liveContext_now]
      cases hplan : present (resolveEffectivePlan (some sub) config.accessDef.plans
          (config.accessDef.levelDefault entry.type) config.now) with
      | none => exact hrest
      | some planId =>
        simp only [planLimits_eq hkeys, hhere planId hplan]
        exact hrest

/-- The limits of a tenant with billing levels, as the set reads them. -/
theorem chainLimits_eval {tenantLevel tenantId name limitKey : String}
    (hkeys : config.accessDef.limitKeys name = [limitKey])
    (hwallets : ∀ wallet, 0 ≤ states.wallets.getConsumption wallet)
    (hoverage : ∀ planId plan limitDef, config.accessDef.plan? planId = some plan →
      plan.limit? limitKey = some limitDef → limitDef.overage = none)
    (hlevel : LevelSettled config states ⟨tenantLevel, tenantId, 0⟩)
    (hancestors : ∀ entry ∈ states.ancestors ⟨tenantLevel, tenantId⟩, ∀ planId,
      subscribedPlan config states entry = some planId →
        (config.accessDef.plan? planId).bind (·.limit? limitKey) = none) :
    ∃ free, evalExcept (storeReplies config states) (checkMultiLevelLimits
        (liveContext config mode) name (chainOf states tenantLevel tenantId)) = .ok free ∧
      (free = true ↔ ∀ planDef,
        (present (deepestPlan config states tenantLevel tenantId)).bind config.accessDef.plan?
          = some planDef →
        LimitFree config states ⟨tenantLevel, tenantId⟩
          (deepestSource states ⟨tenantLevel, tenantId⟩ planDef) name) := by
  have hrest : evalExcept (storeReplies config states) (checkMultiLevelLimits
      (liveContext config mode) name (sortByDepth (states.ancestors ⟨tenantLevel, tenantId⟩)))
      = .ok true := by
    refine unlimitedLevels_eval hkeys fun entry hentry => hancestors entry ?_
    simpa [sortByDepth] using hentry
  have htenant := @eval_await_bind (storeReplies config states) Bool
    (.getSubscription tenantLevel tenantId) (states.subscriptions ⟨tenantLevel, tenantId⟩) rfl
  unfold chainOf checkMultiLevelLimits
  simp only [htenant]
  cases hsub : states.subscriptions ⟨tenantLevel, tenantId⟩ with
  | none =>
    -- no subscription, and then no plan of the level either
    have hnone : present (deepestPlan config states tenantLevel tenantId) = none := by
      rcases hlevel with ⟨-, hsome⟩ | ⟨-, hdefault, -⟩
      · simp [subscribedPlan, hsub] at hsome
      · unfold deepestPlan levelPlan
        rw [hsub]
        split
        · rfl
        · simp only [hdefault]
          rfl
    exact ⟨true, hrest, by simp [hnone]⟩
  | some sub =>
    obtain ⟨hplans, hsome⟩ : (config.accessDef.billingLevels.get? tenantLevel).getD [] ≠ [] ∧
        (subscribedPlan config states ⟨tenantLevel, tenantId, 0⟩).isSome := by
      rcases hlevel with hlevel | ⟨hnone, -⟩
      · exact hlevel
      · rw [hsub] at hnone
        cases hnone
    obtain ⟨planId, hplanId⟩ := isSome_iff_exists.mp hsome
    simp only [subscribedPlan, hsub, bind_some] at hplanId
    obtain ⟨planDef, hplan⟩ := exists_plan hplanId
    have hdeepest : present (deepestPlan config states tenantLevel tenantId) = some planId := by
      unfold deepestPlan levelPlan
      rw [if_neg (by simpa using hplans), hsub]
      exact hplanId
    simp only [hdeepest, bind_some, hplan, Option.some.injEq, forall_eq',
      liveContext_accessDef, liveContext_now, hplanId, planLimits_eq hkeys]
    cases hlimit : planDef.limit? limitKey with
    | none =>
      refine ⟨true, hrest, ?_⟩
      simp [LimitFree, limitOf, hkeys, deepestSource, hlimit]
    | some limitDef =>
      obtain ⟨walletStates, heval, hiff⟩ := @resolveAllLimitStates_eval config states mode
        ⟨tenantLevel, tenantId⟩ name limitKey planId sub planDef
        (config.accessDef.levelDefault tenantLevel) hsub
        (by rw [AccessDefinition.levelDefault, Option.or_assoc, Option.or_self]; exact hplanId)
        hkeys hplan hwallets fun limitDef => hoverage planId planDef limitDef hplan
      have hsource : deepestSource states ⟨tenantLevel, tenantId⟩ planDef
          = ⟨planDef, states.addOns ⟨tenantLevel, tenantId⟩, some sub.overrides,
            sub.startedAt⟩ := by
        unfold deepestSource
        rw [hsub]
        rfl
      have hoverrides : evalExcept (storeReplies config states)
          (overridesOf (liveContext config mode) tenantLevel tenantId) = .ok none := rfl
      refine ⟨checkLimitStates walletStates, ?_, by rw [hsource]; exact hiff⟩
      simp only [isSome_some, Bool.not_true, Bool.false_eq_true, if_false,
        evalExcept_bind, hoverrides, ok_bind, heval]
      cases checkLimitStates walletStates with
      | true => exact hrest
      | false => rfl

/-! ### The check -/

/-- The limits leave room for the entitlement, as the set reads them. -/
def LimitsHave (config : ComputeAccessSetConfig) (states : StoreStates) (tenantId name : String) :
    Prop :=
  match multiLevel config with
  | some level => config.walletStore = true → ∀ planDef,
      (present (deepestPlan config states level.1 level.2)).bind config.accessDef.plan?
        = some planDef →
      LimitFree config states ⟨level.1, level.2⟩
        (deepestSource states ⟨level.1, level.2⟩ planDef) name
  | none => ∀ sub planDef,
      subscribed config states (tenantOf config tenantId) = some (sub, planDef) →
      config.walletStore = true → LimitFree config states (tenantOf config tenantId)
        ⟨planDef, states.addOns (tenantOf config tenantId), some sub.overrides,
          sub.startedAt⟩ name

/-- What the levels of a check come to, from what they come to in `can`. -/
theorem limitLayer_adds {denials : Denials} {body : StoreM Bool} {body' : CheckM Denials}
    {free : Bool} {p : Prop} (hagree : LimitsAgree denials
      (evalExcept (storeReplies config states) body) (evalExcept (storeReplies config states) body'))
    (hfree : evalExcept (storeReplies config states) body = .ok free) (hp : free = true ↔ p) :
    Adds (storeReplies config states) (do
        let result ← ExceptT.lift body'.run
        match result with
        | .ok denials => return denials
        | .error (error, denials) => onCloudErrorForCheck (liveContext config mode) error denials)
      denials .limitReached p := by
  unfold Adds
  rw [hfree] at hagree
  rw [evalExcept_bind, evalExcept_lift]
  have hrun : Program.eval (storeReplies config states) body'.run
      = evalExcept (storeReplies config states) body' := rfl
  rw [hrun, ← hp]
  cases hcheck : evalExcept (storeReplies config states) body' with
  | ok denials' =>
    rw [hcheck] at hagree
    cases free with
    | true => exact ⟨denials', rfl, .inl ⟨rfl, hagree⟩⟩
    | false => exact ⟨denials', rfl, .inr ⟨by simp, hagree⟩⟩
  | error failed =>
    rw [hcheck] at hagree
    cases free <;> exact hagree.elim

theorem limitsForCheck_reasons {tenantId name : String}
    (hsettled : LimitSettled config states name) {denials : Denials}
    (hfresh : .limitReached ∉ denials.reasons) :
    Adds (storeReplies config states) (checkLimitsForCheck (liveContext config mode) name
        (some (tenantOf config tenantId)) none (liveChain config states) denials) denials
      .limitReached (config.subscriptionStore = true →
        LimitsHave config states tenantId name) := by
  -- without a limit key there is no limit to leave room under
  have hnone : config.accessDef.limitKeys name = [] → ∀ resource source,
      LimitFree config states resource source name := by
    intro hkeys resource source pending hlimit
    simp [limitOf, hkeys] at hlimit
  have hpass : (config.subscriptionStore = true → LimitsHave config states tenantId name) →
      checkLimitsForCheck (liveContext config mode) name (some (tenantOf config tenantId)) none
        (liveChain config states) denials = pure denials →
      Adds (storeReplies config states) (checkLimitsForCheck (liveContext config mode) name
        (some (tenantOf config tenantId)) none (liveChain config states) denials) denials
        .limitReached (config.subscriptionStore = true →
          LimitsHave config states tenantId name) := by
    intro hhave hpure
    rw [hpure]
    exact ⟨denials, rfl, .inl ⟨hhave, rfl⟩⟩
  cases hkeys : config.accessDef.limitKeys name with
  | nil =>
    refine hpass (fun _ => ?_) ?_
    · unfold LimitsHave
      cases multiLevel config with
      | none => exact fun _ _ _ _ => hnone hkeys _ _
      | some level => exact fun _ _ _ => hnone hkeys _ _
    · unfold checkLimitsForCheck
      simp only [liveContext_accessDef, hkeys]
  | cons limitKey limitKeys =>
    by_cases hstores : config.subscriptionStore = true ∧ config.walletStore = true
    · obtain ⟨hstore, hwallet⟩ := hstores
      obtain ⟨honly, hwallets, hoverage, hlevels⟩ :=
        hsettled hstore hwallet limitKey (by simp [hkeys])
      have hboth : ((liveContext config mode).walletStore
          && (liveContext config mode).subscriptionStore) = true := by
        simp [liveContext, hstore, hwallet]
      unfold checkLimitsForCheck LimitsHave liveChain
      simp only [liveContext_accessDef, hkeys, hboth, hstore, hwallet, forall_const]
      cases hmulti : multiLevel config with
      | some level =>
        rw [hmulti] at hlevels
        obtain ⟨-, hlevel, hancestors⟩ := hlevels
        obtain ⟨free, heval, hiff⟩ := @chainLimits_eval config states mode level.1 level.2 name
          limitKey honly hwallets hoverage hlevel hancestors
        exact limitLayer_adds (multiLevel_agree name _ denials hfresh) heval hiff
      | none =>
        obtain ⟨free, heval, hiff⟩ := @singleLimits_eval config states mode tenantId name
          limitKey honly hwallets hoverage
        exact limitLayer_adds (singleLevel_agree name _ none denials) heval hiff
    · refine hpass (fun hstore => ?_) ?_
      · have hwallet : config.walletStore ≠ true := fun h => hstores ⟨hstore, h⟩
        unfold LimitsHave
        cases multiLevel config with
        | none => exact fun _ _ _ h => absurd h hwallet
        | some level => exact fun h => absurd h hwallet
      · have hboth : ((liveContext config mode).walletStore
            && (liveContext config mode).subscriptionStore) = false := by
          rw [Bool.and_eq_false_iff]
          by_contra h
          simp only [not_or, Bool.not_eq_false] at h
          exact hstores ⟨h.2, h.1⟩
        unfold checkLimitsForCheck
        rw [hboth]
        cases (liveContext config mode).accessDef.limitKeys name <;> rfl

/-- Every layer but the roles lets the tenant pass. -/
def TenantPasses (config : ComputeAccessSetConfig) (states : StoreStates)
    (tenantId name : String) (entDef : EntitlementDef) : Prop :=
  flagsOn config states tenantId entDef = true ∧
  (config.subscriptionStore = true → name ∈ config.accessDef.planGatedEntitlements →
    PlanHas config states tenantId name entDef) ∧
  (config.subscriptionStore = true → LimitsHave config states tenantId name)

theorem orgChain_eval {tenantId : String} (htenant : present config.tenantId = some tenantId) :
    evalExcept (storeReplies config states)
        (orgChain (liveContext config mode) (some (tenantOf config tenantId)))
      = .ok (liveChain config states) := by
  unfold orgChain resolveAncestorChain liveChain multiLevel
  simp only [liveContext, htenant]
  cases config.ancestorResolver with
  | false => rfl
  | true =>
    cases hlevel : present config.tenantLevel with
    | none => rfl
    | some tenantLevel =>
      obtain ⟨hlevel, -⟩ := present_eq_some.mp hlevel
      show Except.ok (some ((⟨config.tenantLevel.getD "tenant", tenantId, 0⟩ :
        AncestorChainEntry) :: sortByDepth (states.ancestors ⟨tenantLevel, tenantId⟩))) = _
      rw [hlevel]
      rfl

theorem check_reasons {tenantId name userId : String} {entDef : EntitlementDef}
    {resource : ResourceRef} (htenant : present config.tenantId = some tenantId)
    (huser : present config.userId = some userId)
    (hent : config.accessDef.entitlements.get? name = some entDef)
    (horg : states.orgs resource = some (tenantOf config tenantId))
    (hsettled : LimitSettled config states name) :
    ∃ result, ∃ hasRole : Prop, evalExcept (storeReplies config states)
        (check (liveContext config mode) name (some resource)) = .ok result ∧
      (hasRole → resource.type = entitlementEntity name → entDef.roles = [] ∨
        ∃ role ∈ entDef.roles, role ∈ config.roleStore.candidateRoles userId resource
          config.accessDef config.closureStore) ∧
      (result.allowed = true ↔ hasRole ∧ TenantPasses config states tenantId name entDef) ∧
      ((∀ reason ∈ result.reasons, reason = .roleRequired) ↔
        TenantPasses config states tenantId name entDef) := by
  have horgEval : evalExcept (storeReplies config states)
      (resolveOrg (liveContext config mode) (some resource))
      = .ok (some (tenantOf config tenantId)) := congrArg Except.ok horg
  have hoverrides : evalExcept (storeReplies config states)
      (orgOverrides (liveContext config mode) (some (tenantOf config tenantId))) = .ok none := rfl
  have hchain := @orgChain_eval config states mode tenantId htenant
  obtain ⟨d₁, h₁, hmem₁⟩ := (@flagsForCheck_reasons config states mode tenantId entDef .empty).mem
  obtain ⟨hasRole, hroles, hcandidate⟩ := @rolesForCheck_reasons config states mode userId entDef
    name resource d₁
  obtain ⟨d₂, h₂, hmem₂⟩ := hroles.mem
  obtain ⟨d₃, h₃, hmem₃⟩ := (@planForCheck_reasons config states mode tenantId name entDef hent
    d₂).mem
  have hfresh : .limitReached ∉ d₃.reasons := by
    simp [hmem₃, hmem₂, hmem₁, Denials.empty]
  obtain ⟨d₄, h₄, hmem₄⟩ := (@limitsForCheck_reasons config states mode tenantId name hsettled d₃
    hfresh).mem
  simp only [hmem₁, hmem₂, hmem₃, Denials.empty, not_mem_nil, false_or] at hmem₄
  refine ⟨d₄.result, hasRole, ?_, hcandidate, ?_, ?_⟩
  · unfold check
    have huser' : present (liveContext config mode).userId = some userId := huser
    rw [huser', liveContext_accessDef, hent]
    simp only [evalExcept_bind, horgEval, hoverrides, hchain, h₁, h₂, h₃, h₄, ok_bind]
    rfl
  · rw [allowed_result_iff, eq_nil_iff_forall_not_mem]
    simp only [hmem₄]
    constructor
    · intro h
      exact ⟨not_not.mp fun hnot => h .roleRequired (.inl (.inl (.inr ⟨rfl, hnot⟩))),
        not_not.mp fun hnot => h .flagDisabled (.inl (.inl (.inl ⟨rfl, hnot⟩))),
        not_not.mp fun hnot => h .planRequired (.inl (.inr ⟨rfl, hnot⟩)),
        not_not.mp fun hnot => h .limitReached (.inr ⟨rfl, hnot⟩)⟩
    · rintro ⟨hrole, hflags, hplan, hlimits⟩ reason (((⟨-, hnot⟩ | ⟨-, hnot⟩) | ⟨-, hnot⟩) | ⟨-, hnot⟩)
      · exact hnot hflags
      · exact hnot hrole
      · exact hnot hplan
      · exact hnot hlimits
  · have hperm : ∀ reason, reason ∈ d₄.result.reasons ↔ reason ∈ d₄.reasons := by
      intro reason
      show reason ∈ orderDenialReasons d₄.reasons ↔ _
      simp [orderDenialReasons]
    simp only [hperm, hmem₄]
    constructor
    · intro h
      refine ⟨not_not.mp fun hnot => ?_, not_not.mp fun hnot => ?_, not_not.mp fun hnot => ?_⟩
      · cases h .flagDisabled (.inl (.inl (.inl ⟨rfl, hnot⟩)))
      · cases h .planRequired (.inl (.inr ⟨rfl, hnot⟩))
      · cases h .limitReached (.inr ⟨rfl, hnot⟩)
    · rintro ⟨hflags, hplan, hlimits⟩ reason (((⟨-, hnot⟩ | ⟨hreason, -⟩) | ⟨-, hnot⟩) | ⟨-, hnot⟩)
      · exact absurd hflags hnot
      · exact hreason
      · exact absurd hplan hnot
      · exact absurd hlimits hnot

end Vertz.Proofs
