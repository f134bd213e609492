import Vertz.Proofs.LiveChecks

/-!
# `Vertz.Proofs.AccessSet`: a computed set against live checks
-/

namespace Vertz.Proofs

open Vertz.Lib
open Vertz.Server.Auth
open Vertz.Spec

variable {config : ComputeAccessSetConfig} {states : StoreStates} {mode : Option CloudFailMode}

/-! ### Plans and limits, as a check reads them -/

theorem mem_levelFeatures {entry : AncestorChainEntry} {name : String}
    (hlevel : LevelSettled config states entry) :
    name ∈ levelFeatures config states entry ↔ ∃ planId,
      subscribedPlan config states entry = some planId ∧
        HasFeature config states ⟨entry.type, entry.id⟩ planId name := by
  rcases hlevel with ⟨hplans, hsome⟩ | ⟨hsub, hdefault, haddOns⟩
  · obtain ⟨planId, hplanId⟩ := Option.isSome_iff_exists.mp hsome
    obtain ⟨sub, hsub, hresolved⟩ := Option.bind_eq_some_iff.mp hplanId
    have hplan : present (levelPlan config entry (states.subscriptions ⟨entry.type, entry.id⟩))
        = some planId := by
      rw [hsub]
      exact hresolved
    rw [levelFeatures_of (by simpa using hplans), planFeatures, hplan, hplanId]
    simp [HasFeature]
  · have hnone : subscribedPlan config states entry = none := by simp [subscribedPlan, hsub]
    have hempty : levelFeatures config states entry = [] := by
      simp [levelFeatures, planFeatures, levelPlan, addOnFeatures, hsub, haddOns, hdefault, present]
    simp [hnone, hempty]

/-- The features of a tenant with billing levels. -/
theorem chainPlan_iff {tenantId : String} {level : String × String} {name : String}
    {entDef : EntitlementDef} {resolved : ChainPlans} (hmulti : multiLevel config = some level)
    (heval : evalExcept (storeReplies config states) (resolveLevels config
      (chainOf states level.1 level.2) ⟨.empty, none, [], .empty⟩) = .ok resolved)
    (hstore : config.subscriptionStore = true) (hsettled : PlanSettled config states tenantId name) :
    (name ∈ config.accessDef.planGatedEntitlements →
        chainHasFeature resolved level.1 name entDef = true)
      ↔ (name ∈ config.accessDef.planGatedEntitlements →
        PlanHas config states tenantId name entDef) := by
  refine imp_congr_right fun hgated => ?_
  have hlevels := hsettled hstore hgated
  rw [hmulti] at hlevels
  obtain ⟨hchain, htenant, hancestors⟩ := hlevels
  obtain ⟨plans, hplans, -, hfeature⟩ := @tenantLevels_eval config states level.1 level.2 hchain
  obtain rfl : resolved = plans := Except.ok.inj (heval.symm.trans hplans)
  unfold PlanHas LevelHasFeature
  rw [hfeature, hmulti]
  refine exists_congr fun entry => and_congr_right fun hentry => and_congr_right fun _ => ?_
  refine mem_levelFeatures ?_
  rcases (mem_chainOf states).mp hentry with rfl | hentry
  · exact htenant
  · exact hancestors entry hentry

theorem chainLimits_iff {tenantId : String} {level : String × String} {name : String}
    {resolved : ChainPlans} (hmulti : multiLevel config = some level)
    (heval : evalExcept (storeReplies config states) (resolveLevels config
      (chainOf states level.1 level.2) ⟨.empty, none, [], .empty⟩) = .ok resolved)
    (hstore : config.subscriptionStore = true) (hsettled : LimitSettled config states name) :
    (config.walletStore = true → ∀ planDef,
        (present resolved.deepestPlan).bind config.accessDef.plan? = some planDef →
          LimitFree config states ⟨level.1, level.2⟩
            (deepestSource states ⟨level.1, level.2⟩ planDef) name)
      ↔ LimitsHave config states tenantId name := by
  unfold LimitsHave
  rw [hmulti]
  refine imp_congr_right fun hwallet => ?_
  cases hkeys : config.accessDef.limitKeys name with
  | nil =>
    have hfree : ∀ resource source, LimitFree config states resource source name := by
      intro resource source pending hlimit
      simp [limitOf, hkeys] at hlimit
    exact iff_of_true (fun _ _ => hfree _ _) fun _ _ => hfree _ _
  | cons limitKey limitKeys =>
    obtain ⟨-, -, -, hlevels⟩ := hsettled hstore hwallet limitKey (by simp [hkeys])
    rw [hmulti] at hlevels
    obtain ⟨plans, hplans, hdeepest, -⟩ :=
      @tenantLevels_eval config states level.1 level.2 hlevels.1
    obtain rfl : resolved = plans := Except.ok.inj (heval.symm.trans hplans)
    rw [hdeepest]

theorem singlePlan_iff {tenantId name : String} {entDef : EntitlementDef}
    (hmulti : multiLevel config = none) (hstore : config.subscriptionStore = true)
    (hsettled : PlanSettled config states tenantId name) :
    (∀ sub planDef, subscribed config states (tenantOf config tenantId) = some (sub, planDef) →
        PlanAllows config states (tenantOf config tenantId) name sub planDef)
      ↔ (name ∈ config.accessDef.planGatedEntitlements →
          PlanHas config states tenantId name entDef) ∧ LimitsHave config states tenantId name := by
  unfold PlanHas LimitsHave
  rw [hmulti]
  -- the subscription is there, to a plan of the definition
  have hplan : ∀ sub planDef, subscribed config states (tenantOf config tenantId)
      = some (sub, planDef) ↔ ∃ planId, states.subscriptions (tenantOf config tenantId) = some sub ∧
        present (resolveEffectivePlan (some sub) config.accessDef.plans
          config.accessDef.defaultPlan config.now) = some planId ∧
        config.accessDef.plan? planId = some planDef := by
    intro sub planDef
    unfold subscribed
    constructor
    · intro h
      obtain ⟨sub', hsub, h⟩ := Option.bind_eq_some_iff.mp h
      obtain ⟨planDef', h, hpair⟩ := Option.map_eq_some_iff.mp h
      cases hpair
      obtain ⟨planId, hresolved, hplan⟩ := Option.bind_eq_some_iff.mp h
      exact ⟨planId, hsub, hresolved, hplan⟩
    · intro h
      obtain ⟨planId, hsub, hresolved, hplan⟩ := h
      simp only [hsub, Option.bind_some, hresolved, hplan, Option.map_some]
  have hfeatures : ∀ {planId planDef}, config.accessDef.plan? planId = some planDef →
      (HasFeature config states (tenantOf config tenantId) planId name ↔
        name ∈ planDef.features.getD []
          ++ addOnFeatures config (states.addOns (tenantOf config tenantId))) := by
    intro planId planDef hplan
    unfold HasFeature featuresOf
    rw [hplan]
    rfl
  constructor
  · intro h
    refine ⟨fun hgated => ?_, fun sub planDef hsome => (h sub planDef hsome).2⟩
    have hsubscribed := hsettled hstore hgated
    rw [hmulti] at hsubscribed
    obtain ⟨sub, hsub, hsome⟩ := hsubscribed
    obtain ⟨planId, hresolved⟩ := Option.isSome_iff_exists.mp hsome
    obtain ⟨planDef, hdef⟩ := exists_plan hresolved
    have hallows := h sub planDef ((hplan sub planDef).mpr ⟨planId, hsub, hresolved, hdef⟩)
    exact ⟨sub, planId, hsub, hresolved, (hfeatures hdef).mpr (hallows.1 hgated)⟩
  · intro h sub planDef hsome
    refine ⟨fun hgated => ?_, h.2 sub planDef hsome⟩
    obtain ⟨sub', planId', hsub', hresolved', hfeature⟩ := h.1 hgated
    obtain ⟨planId, hsub, hresolved, hdef⟩ := (hplan sub planDef).mp hsome
    obtain rfl : sub' = sub := Option.some.inj (hsub'.symm.trans hsub)
    obtain rfl : planId' = planId := Option.some.inj (hresolved'.symm.trans hresolved)
    exact (hfeatures hdef).mp hfeature

/-! ### The entry -/

theorem applyPlans_eval {tenantId name : String} {entDef : EntitlementDef}
    {entitlements : Record AccessCheckData} {p : Prop}
    (hent : config.accessDef.entitlements.get? name = some entDef)
    (hsettled : SettledIn config states tenantId name) (h : EntryIs entitlements name p) :
    ∃ plan plans planned, evalExcept (storeReplies config states)
        (applyPlans config tenantId entitlements) = .ok (plan, plans, planned) ∧
      EntryIs planned name (p ∧ (config.subscriptionStore = true →
        (name ∈ config.accessDef.planGatedEntitlements →
          PlanHas config states tenantId name entDef) ∧
        LimitsHave config states tenantId name)) := by
  unfold applyPlans
  cases hstore : config.subscriptionStore with
  | false => exact ⟨none, .empty, entitlements, rfl, h.congr (by simp)⟩
  | true =>
    cases hmulti : multiLevel config with
    | none =>
      have hname : name ∈ config.accessDef.entitlements.keys := by
        rw [Record.mem_keys_iff, hent]
        rfl
      obtain ⟨plan, plans, planned, heval, hentry⟩ := @applyPlan_eval config states
        (tenantOf config tenantId) name entitlements p h hname
      refine ⟨plan, plans, planned, heval, hentry.congr ?_⟩
      simp only [forall_const]
      rw [singlePlan_iff hmulti hstore hsettled.plan]
    | some level =>
      obtain ⟨resolved, plan, plans, planned, hresolved, heval, hentry⟩ :=
        @applyChainPlans_eval config states level.1 level.2 name entDef entitlements p h hent
      refine ⟨plan, plans, planned, heval, hentry.congr ?_⟩
      simp only [forall_const]
      rw [chainPlan_iff hmulti hresolved hstore hsettled.plan,
        chainLimits_iff hmulti hresolved hstore hsettled.limit, and_assoc]

/-- The entry of a user of the tenant, layer by layer. -/
theorem computeAccessSet_eval {tenantId userId name : String} {entDef : EntitlementDef}
    (htenant : present config.tenantId = some tenantId)
    (huser : present config.userId = some userId)
    (hent : config.accessDef.entitlements.get? name = some entDef)
    (hsettled : SettledIn config states tenantId name) :
    ∃ set, evalExcept (storeReplies config states) (computeAccessSet config) = .ok set ∧
      EntryIs set.entitlements name
        (HoldsRequired config entDef ∧ TenantPasses config states tenantId name entDef) := by
  have hroles := @EntryIs.roles config.accessDef (allRoles config.accessDef config.roleStore
    config.closureStore userId) name entDef hent
  obtain ⟨flags, flagged, hflags, hflagged⟩ := @applyFlags_eval config states tenantId name entDef
    _ _ hroles hent
  obtain ⟨plan, plans, planned, hplans, hplanned⟩ := @applyPlans_eval config states tenantId name
    entDef _ _ hent hsettled hflagged
  refine ⟨⟨planned, flags, plan, plans, config.now⟩, ?_, hplanned.congr ?_⟩
  · unfold computeAccessSet
    rw [huser, htenant]
    simp only [evalExcept_bind, hflags, ok_bind, hplans]
    rfl
  · have hholds : (entDef.roles = [] ∨ ∃ role ∈ entDef.roles, role ∈ allRoles config.accessDef
        config.roleStore config.closureStore userId) ↔ HoldsRequired config entDef := by
      refine or_congr_right ⟨?_, ?_⟩
      · rintro ⟨role, hrequired, hrole⟩
        obtain ⟨resource, hcandidate⟩ := mem_allRoles.mp hrole
        exact ⟨userId, resource, role, huser, hcandidate, hrequired⟩
      · rintro ⟨userId', resource, role, huser', hcandidate, hrequired⟩
        obtain rfl : userId = userId' := Option.some.inj (huser.symm.trans huser')
        exact ⟨role, hrequired, mem_allRoles.mpr ⟨resource, hcandidate⟩⟩
    rw [hholds, TenantPasses, imp_and, and_assoc]

/-- A user who is not authenticated has no entry that allows. -/
theorem computeAccessSet_anonymous {name : String} {entDef : EntitlementDef}
    (huser : present config.userId = none)
    (hent : config.accessDef.entitlements.get? name = some entDef) :
    ∃ set, evalExcept (storeReplies config states) (computeAccessSet config) = .ok set ∧
      EntryIs set.entitlements name False := by
  unfold computeAccessSet
  rw [huser]
  refine ⟨_, rfl, ⟨false, [.notAuthenticated], some .notAuthenticated, none⟩, ?_, by simp⟩
  rw [Record.get?_mapValues, hent]
  rfl

theorem setAllows_iff {set : AccessSet} {name : String} {p : Prop}
    (heval : evalExcept (storeReplies config states) (computeAccessSet config) = .ok set)
    (h : EntryIs set.entitlements name p) : SetAllows config states name ↔ p := by
  obtain ⟨entry, hget, hallowed⟩ := h
  rw [← hallowed]
  constructor
  · rintro ⟨set', entry', heval', hget', hallowed'⟩
    obtain rfl : set = set' := Except.ok.inj (heval.symm.trans heval')
    obtain rfl : entry = entry' := Option.some.inj (hget.symm.trans hget')
    exact hallowed'
  · intro h
    exact ⟨set, entry, heval, hget, h⟩

/-- With settled plans and limits the set is computed, and an entry allows
exactly when the user has a required role somewhere and a live check on a
resource of the tenant gives no reason but the role. What a check allows on
a resource of the entitlement's own type, the set allows. -/
theorem set_iff_live (config : ComputeAccessSetConfig) (states : StoreStates)
    (mode : Option CloudFailMode) (tenantId entitlement : String) (entDef : EntitlementDef)
    (htenant : present config.tenantId = some tenantId)
    (hent : config.accessDef.entitlements.get? entitlement = some entDef)
    (horgs : ResolvesToTenant config states tenantId)
    (hsettled : SettledIn config states tenantId entitlement) :
    (∃ set, evalExcept (storeReplies config states) (computeAccessSet config) = .ok set ∧
        (set.entitlements.get? entitlement).isSome) ∧
      ∀ resource, UnderTenant config tenantId resource →
        (SetAllows config states entitlement ↔ HoldsRequired config entDef ∧
          OnlyRoleMissing config states mode entitlement resource) ∧
        (resource.type = entitlementEntity entitlement →
          LiveAllows config states mode entitlement resource →
          SetAllows config states entitlement) := by
  cases huser : present config.userId with
  | none =>
    obtain ⟨set, heval, hentry⟩ := @computeAccessSet_anonymous config states entitlement entDef
      huser hent
    have hset := setAllows_iff heval hentry
    obtain ⟨entry, hget, -⟩ := hentry
    have hcheck : ∀ resource, evalExcept (storeReplies config states)
        (check (liveContext config mode) entitlement (some resource))
        = .ok (deniedFor .notAuthenticated) := by
      intro resource
      have huser' : present (liveContext config mode).userId = none := huser
      unfold check
      rw [huser']
      rfl
    refine ⟨⟨set, heval, by rw [hget]; rfl⟩, fun resource _ => ⟨?_, ?_⟩⟩
    · rw [hset]
      refine iff_of_false not_false fun h => ?_
      obtain ⟨-, result, hresult, honly⟩ := h
      rw [hcheck resource] at hresult
      cases hresult
      cases honly .notAuthenticated (List.mem_singleton.mpr rfl)
    · rintro - ⟨result, hresult, hallowed⟩
      rw [hcheck resource] at hresult
      cases hresult
      cases hallowed
  | some userId =>
    obtain ⟨set, heval, hentry⟩ := computeAccessSet_eval htenant huser hent hsettled
    have hset := setAllows_iff heval hentry
    obtain ⟨entry, hget, -⟩ := hentry
    refine ⟨⟨set, heval, by rw [hget]; rfl⟩, fun resource hunder => ?_⟩
    obtain ⟨result, hasRole, hresult, hcandidate, hallowed, hreasons⟩ :=
      @check_reasons config states mode tenantId entitlement userId entDef resource htenant huser
        hent (horgs resource hunder) hsettled.limit
    refine ⟨?_, fun htype hlive => ?_⟩
    · rw [hset, ← hreasons]
      refine and_congr_right fun _ => ?_
      constructor
      · exact fun honly => ⟨result, hresult, honly⟩
      · rintro ⟨result', hresult', honly⟩
        obtain rfl : result = result' := Except.ok.inj (hresult.symm.trans hresult')
        exact honly
    · obtain ⟨result', hresult', hallowed'⟩ := hlive
      obtain rfl : result = result' := Except.ok.inj (hresult.symm.trans hresult')
      obtain ⟨hrole, hpasses⟩ := hallowed.mp hallowed'
      rw [hset]
      refine ⟨?_, hpasses⟩
      rcases hcandidate hrole htype with hnil | ⟨role, hrequired, hrole⟩
      · exact .inl hnil
      · exact .inr ⟨userId, resource, role, huser, hrole, hrequired⟩

/-! ### Where they differ -/

instance (entitlement : String) : Decidable (SetAllows config states entitlement) :=
  match heval : evalExcept (storeReplies config states) (computeAccessSet config) with
  | .error error => .isFalse (by
      rintro ⟨set, entry, hset, -⟩
      rw [heval] at hset
      cases hset)
  | .ok set =>
    match hget : set.entitlements.get? entitlement with
    | none => .isFalse (by
        rintro ⟨set', entry, hset, hentry, -⟩
        obtain rfl : set = set' := Except.ok.inj (heval.symm.trans hset)
        rw [hget] at hentry
        cases hentry)
    | some entry => decidable_of_iff (entry.allowed = true)
        (setAllows_iff heval ⟨entry, hget, Iff.rfl⟩).symm

instance (entitlement : String) (resource : ResourceRef) :
    Decidable (LiveAllows config states mode entitlement resource) :=
  match heval : evalExcept (storeReplies config states)
      (check (liveContext config mode) entitlement (some resource)) with
  | .error error => .isFalse (by
      rintro ⟨result, hresult, -⟩
      rw [heval] at hresult
      cases hresult)
  | .ok result => decidable_of_iff (result.allowed = true) (by
      constructor
      · exact fun h => ⟨result, heval, h⟩
      · rintro ⟨result', hresult, h⟩
        obtain rfl : result = result' := Except.ok.inj (heval.symm.trans hresult)
        exact h)

theorem agrees_iff_tenant {tenantId entitlement : String}
    (hrows : ∀ row ∈ config.closureStore.rows, row.descendant = tenantOf config tenantId) :
    Agrees config states mode tenantId entitlement ↔
      (SetAllows config states entitlement ↔
        LiveAllows config states mode entitlement (tenantOf config tenantId)) := by
  refine iff_congr Iff.rfl ⟨?_, ?_⟩
  · rintro ⟨resource, rfl | hpath, hlive⟩
    · exact hlive
    · obtain ⟨depth, hrow⟩ := InMemoryClosureStore.hasPath_iff.mp hpath
      rw [← hrows _ hrow]
      exact hlive
  · exact fun hlive => ⟨_, .inl rfl, hlive⟩

/-- Admins of an organization are editors of its projects. Exports are
planned and limited. -/
def acmeDefinition (overage : Option OverageConfig) : AccessDefinition where
  hierarchy := ["organization", "project"]
  inheritance := .ofList [("organization", .ofList [("admin", "editor")])]
  entitlements := .ofList [("organization:manage", ⟨["admin"], none, none⟩),
    ("organization:read", ⟨["member"], none, none⟩), ("project:edit", ⟨["editor"], none, none⟩),
    ("organization:export", ⟨["admin"], none, none⟩)]
  plans := some (.ofList [("pro", ⟨some ["organization:export"],
    some (.ofList [("exports", ⟨1, none, overage⟩)])⟩)])
  defaultPlan := none
  defaultPlans := none
  planGatedEntitlements := ["organization:export"]
  entitlementToLimitKeys := .ofList [("organization:export", ["exports"])]
  roles := .ofList [("organization", ["admin", "member"]), ("project", ["editor"])]

/-- The user has the roles, on the organization that is the tenant or on
another one. -/
def acme (overage : Option OverageConfig) (assignments : List RoleAssignment) :
    ComputeAccessSetConfig where
  userId := some "u1"
  accessDef := acmeDefinition overage
  roleStore := ⟨assignments⟩
  closureStore := ⟨[⟨⟨"organization", "o1"⟩, ⟨"organization", "o1"⟩, 0⟩]⟩
  flagStore := false
  subscriptionStore := true
  walletStore := true
  tenantId := some "o1"
  tenantLevel := some "organization"
  ancestorResolver := false
  now := 0

def acmeStates (subscription : Option Subscription) (consumed : Option ℚ) : StoreStates where
  orgs := fun _ => some ⟨"organization", "o1"⟩
  ancestors := fun _ => []
  flags := fun _ => .empty
  subscriptions := fun _ => subscription
  addOns := fun _ => none
  wallets := fun _ => consumed

def proSubscription : Subscription := ⟨"pro", 0, none, .empty⟩

def proSubscribed (consumed : Option ℚ) : StoreStates := acmeStates (some proSubscription) consumed

/-- Exports are under a second limit too. -/
def doublyLimited : ComputeAccessSetConfig :=
  { acme none [⟨"u1", ⟨"organization", "o1"⟩, "admin"⟩] with
    accessDef := { acmeDefinition none with
      plans := some (.ofList [("pro", ⟨some ["organization:export"], some (.ofList
        [("exports", ⟨1, none, none⟩), ("rows", ⟨0, none, none⟩)])⟩)])
      entitlementToLimitKeys := .ofList [("organization:export", ["exports", "rows"])] } }

/-- Organizations have a default plan and belong to accounts. -/
def levelled : ComputeAccessSetConfig :=
  { acme none [⟨"u1", ⟨"organization", "o1"⟩, "admin"⟩] with
    accessDef := { acmeDefinition none with
      defaultPlans := some (.ofList [("organization", "pro")])
      billingLevels := .ofList [("organization", ["pro"])] }
    ancestorResolver := true }

/-- The account has used up its exports. -/
def exhaustedAccount : StoreStates :=
  { proSubscribed none with
    ancestors := fun _ => [⟨"account", "a1", 1⟩]
    wallets := fun key => if key = "account:a1:exports:0" then some 1 else none }

/-- A role in another organization, a role besides a better one, a role
that no project inherits yet, a tenant without a subscription, one with the
default plan of its level, a limit with overage, a second limit, and a
limit of an ancestor. -/
theorem set_and_checks_differ :
    ¬ Agrees (acme none [⟨"u1", ⟨"organization", "o2"⟩, "admin"⟩]) (acmeStates none none) none "o1"
        "organization:manage" ∧
      ¬ Agrees (acme none [⟨"u1", ⟨"organization", "o1"⟩, "admin"⟩,
        ⟨"u1", ⟨"organization", "o1"⟩, "member"⟩]) (acmeStates none none) none "o1"
        "organization:read" ∧
      ¬ Agrees (acme none [⟨"u1", ⟨"organization", "o1"⟩, "admin"⟩]) (acmeStates none none) none
        "o1" "project:edit" ∧
      ¬ Agrees (acme none [⟨"u1", ⟨"organization", "o1"⟩, "admin"⟩]) (acmeStates none none) none
        "o1" "organization:export" ∧
      ¬ Agrees (acme (some ⟨1, 1, none⟩) [⟨"u1", ⟨"organization", "o1"⟩, "admin"⟩])
        (proSubscribed (some 2)) none "o1" "organization:export" ∧
      ¬ Agrees levelled (acmeStates none none) none "o1" "organization:export" ∧
      ¬ Agrees doublyLimited (proSubscribed none) none "o1" "organization:export" ∧
      ¬ Agrees levelled exhaustedAccount none "o1" "organization:export" := by
  refine ⟨?_, ?_, ?_, ?_, ?_, ?_, ?_, ?_⟩
  all_goals
    rw [agrees_iff_tenant (by decide)]
    decide

theorem acme_settled (assignments : List RoleAssignment) :
    SettledIn (acme none assignments) (proSubscribed none) "o1" "organization:export" where
  plan := by
    have hpro : (present (resolveEffectivePlan (some proSubscription) (acmeDefinition none).plans
      none 0)).isSome = true := by decide
    exact fun _ _ => ⟨proSubscription, rfl, hpro⟩
  limit := by
    intro _ _ limitKey hkey
    obtain rfl : limitKey = "exports" := List.mem_singleton.mp hkey
    refine ⟨rfl, fun wallet => le_refl _, fun planId plan limitDef hplan hlimit => ?_, trivial⟩
    -- there is one plan, with one limit
    have hpro := (Record.mem_entries_iff _).mpr hplan
    obtain ⟨rfl, rfl⟩ := Prod.mk.inj (List.mem_singleton.mp hpro)
    obtain rfl := Option.some.inj hlimit
    rfl

/-- An admin of a tenant with a subscription and nothing consumed. -/
theorem admin_exports :
    SetAllows (acme none [⟨"u1", ⟨"organization", "o1"⟩, "admin"⟩]) (proSubscribed none)
        "organization:export"
      ↔ HoldsRequired (acme none [⟨"u1", ⟨"organization", "o1"⟩, "admin"⟩]) ⟨["admin"], none, none⟩
        ∧ OnlyRoleMissing (acme none [⟨"u1", ⟨"organization", "o1"⟩, "admin"⟩])
          (proSubscribed none) none "organization:export" ⟨"organization", "o1"⟩ :=
  ((set_iff_live (acme none [⟨"u1", ⟨"organization", "o1"⟩, "admin"⟩]) (proSubscribed none) none
    "o1" "organization:export" ⟨["admin"], none, none⟩ (by decide) (by decide)
    (fun _ _ => rfl) (acme_settled _)).2 ⟨"organization", "o1"⟩ (.inl rfl)).1

end Vertz.Proofs
