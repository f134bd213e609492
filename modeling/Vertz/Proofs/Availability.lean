import Mathlib.Tactic.Ring
import Vertz.Proofs.Consumption

/-!
# `Vertz.Proofs.Availability`: `can` against `canAndConsume`

`can` reads the state of every limit, `canAndConsume` takes a unit from
every limit.
-/

namespace Vertz.Proofs

open Vertz.Lib
open Vertz.Server.Auth
open Vertz.Spec List InMemoryWalletStore

variable {answers : Answers} {wallets : InMemoryWalletStore} {config : AccessContextConfig}

/-! ### `can` only reads -/

/-- The calls that leave the wallets alone. -/
def isReadCall : StoreOp → Bool
  | .consume _ _ _ => false
  | .unconsume _ _ => false
  | _ => true

abbrev ReadOnly {α : Type} (p : StoreM α) : Prop := CallsOnly (fun op => isReadCall op = true) p

theorem await_reads {op : StoreOp} (h : isReadCall op = true) : ReadOnly (await op) := .await h

theorem isRead_of_config {op : stores.Op} (h : isConfigCall op = true) : isReadCall op = true := by
  cases op <;> first | rfl | cases h

theorem readOnly_of_config {α : Type} {p : StoreM α} (h : ConfigOnly p) : ReadOnly p :=
  h.mono fun _ hop => isRead_of_config hop

theorem limitStates_calls (org : ResourceRef) (subscription : Subscription) (planId : String)
    (snapshot : Option PlanSnapshot) (overrides : Option TenantOverrides)
    (limitKeys : List String) :
    ReadOnly (limitStates config org subscription planId snapshot overrides limitKeys) := by
  induction limitKeys with
  | nil => exact .pure _
  | cons limitKey limitKeys ih =>
    unfold limitStates
    split
    · exact ih
    · refine .bind (readOnly_of_config (computeEffectiveLimit_calls config _ _ _ _ _))
        fun resolvedMax => ?_
      dsimp only
      split
      · refine .bind (.pure _) fun state => ?_
        exact .bind ih fun _ => .pure _
      · refine .bind (await_reads rfl) fun consumed => .bind (.pure _) fun state => ?_
        exact .bind ih fun _ => .pure _

theorem resolveAllLimitStates_calls (entitlement : String) (org : ResourceRef)
    (overrides : Option TenantOverrides) (levelDefaultPlan : Option String) :
    ReadOnly (resolveAllLimitStates config entitlement org overrides levelDefaultPlan) := by
  refine .bind (await_reads rfl) fun subscription => ?_
  split
  · split
    · exact .pure _
    · refine .bind (readOnly_of_config (versionSnapshot_calls config _ _)) fun snapshot => ?_
      exact limitStates_calls _ _ _ _ _ _
  · exact .pure _

theorem checkMultiLevelLimits_calls (entitlement : String) (chain : List AncestorChainEntry) :
    ReadOnly (checkMultiLevelLimits config entitlement chain) := by
  induction chain with
  | nil => exact .pure _
  | cons entry chain ih =>
    refine .bind (await_reads rfl) fun subscription => ?_
    split
    · exact ih
    · dsimp only
      split
      · exact ih
      · refine .ite ih ?_
        refine .bind (readOnly_of_config (overridesOf_calls config _ _)) fun overrides => ?_
        refine .bind (resolveAllLimitStates_calls _ _ _ _) fun states => ?_
        exact .ite ih (.pure _)

theorem can_calls (entitlement : String) (resource : Option ResourceRef) :
    CallsExcept (fun op => isReadCall op = true) (can config entitlement resource) := by
  have hconfig : ∀ {α : Type} {p : StoreM α}, ConfigOnly p →
      CallsExcept (fun op => isReadCall op = true) p := fun h => (readOnly_of_config h).calls
  refine .bind (hconfig (resolveOrg_calls config resource)) fun org => ?_
  refine .bind (hconfig (orgOverrides_calls config org)) fun overrides => ?_
  refine .bind (hconfig (orgChain_calls config org)) fun ancestors => ?_
  refine .bind (hconfig (checkLayers1to3_calls config _ _ _ _ _)) fun allowed => ?_
  cases allowed with
  | false => trivial
  | true =>
    show CallsExcept _ (checkLimits config entitlement org overrides ancestors)
    unfold checkLimits
    split
    · refine .tryCatch ?_ fun error => ?_
      · split
        · exact (checkMultiLevelLimits_calls _ _).calls
        · exact .bind (resolveAllLimitStates_calls _ _ _ _).calls fun _ => trivial
      · unfold onCloudError
        split <;> trivial
    · trivial

theorem repliesAt_ok (op : stores.Op) : ∃ value, repliesAt answers wallets op = .ok value := by
  cases op <;> exact ⟨_, rfl⟩

theorem returnsTrue_can_iff (entitlement : String) (resource : Option ResourceRef) :
    ReturnsTrue answers wallets (can config entitlement resource)
      ↔ evalExcept (repliesAt answers wallets) (can config entitlement resource) = .ok true := by
  unfold ReturnsTrue
  have hread : ∀ op : stores.Op, isReadCall op = true →
      handleStore answers.replies op wallets = (repliesAt answers wallets op, wallets) := by
    intro op hop
    cases op <;> first | rfl | cases hop
  rw [Program.run_of_calls (Program.Calls.mono hread (can_calls entitlement resource))]
  exact Iff.rfl

/-! ### Room at a level -/

/-- The state `can` looks at for a limit. -/
def stateOf (wallets : InMemoryWalletStore) (lc : LimitConsumption) : LimitState :=
  ⟨lc.wallet.entitlement, lc.effectiveMax,
    if lc.effectiveMax = -1 then 0 else consumedAt wallets (key lc.wallet),
    lc.overage⟩

/-- `can` finds room in all of the limits. -/
def AllHaveRoom (wallets : InMemoryWalletStore) (limits : List LimitConsumption) : Prop :=
  ∀ lc ∈ limits, HasRoom lc (consumedAt wallets (key lc.wallet)) = true

theorem checkLimitStates_cons (ws : LimitState) (states : List LimitState) :
    checkLimitStates (ws :: states) = (checkLimitStates [ws] && checkLimitStates states) := by
  simp only [checkLimitStates]
  by_cases hzero : ws.max = 0
  · simp [hzero]
  · by_cases hunlimited : ws.max = -1
    · simp [hunlimited]
    · by_cases hroom : ws.consumed ≥ ws.max
      · cases ws.overage with
        | none => simp [hzero, hunlimited, hroom]
        | some overage =>
          cases hcap : overage.cap with
          | none => simp [hzero, hunlimited, hroom, hcap]
          | some cap =>
            cases hge : (overageCost overage (ws.consumed - ws.max)).ge cap <;>
              simp [hzero, hunlimited, hroom, hcap, hge]
      · simp [hzero, hunlimited, hroom]

theorem hasRoom_stateOf (lc : LimitConsumption) :
    checkLimitStates [stateOf wallets lc]
      = HasRoom lc (consumedAt wallets (key lc.wallet)) := by
  unfold HasRoom stateOf
  by_cases hunlimited : lc.effectiveMax = -1
  · simp [checkLimitStates, hunlimited]
  · rw [if_neg hunlimited]

variable (limits : List LimitConsumption)

theorem checkLimitStates_iff :
    checkLimitStates (limits.map (stateOf wallets)) = true ↔ AllHaveRoom wallets limits := by
  unfold AllHaveRoom
  induction limits with
  | nil => simp [checkLimitStates]
  | cons lc limits ih =>
    rw [map_cons, checkLimitStates_cons, Bool.and_eq_true, ih, hasRoom_stateOf]
    simp

theorem limitStates_eq (org : ResourceRef) (subscription : Subscription) (planId : String)
    (snapshot : Option PlanSnapshot) (overrides : Option TenantOverrides)
    (limitKeys : List String) :
    evalExcept (repliesAt answers wallets)
        (limitStates config org subscription planId snapshot overrides limitKeys)
      = (evalExcept (repliesAt answers wallets)
          (limitConsumptions config org subscription planId snapshot overrides limitKeys)).map
        (List.map (stateOf wallets)) := by
  induction limitKeys with
  | nil => rfl
  | cons limitKey limitKeys ih =>
    unfold limitStates limitConsumptions
    cases hdef : limitDefOf config snapshot planId limitKey with
    | none => exact ih
    | some limitDef =>
      simp only [evalExcept_bind]
      cases evalExcept (repliesAt answers wallets) (computeEffectiveLimit config limitDef.max
        limitKey org subscription overrides) with
      | error error => rfl
      | ok resolvedMax =>
        have hrest : ∀ state, state = stateOf wallets
              ⟨walletOf org limitKey (limitPeriod config subscription limitDef), resolvedMax,
                limitDef.overage⟩ →
            (evalExcept (repliesAt answers wallets)
              (limitStates config org subscription planId snapshot overrides limitKeys) >>=
              fun states => Except.ok (state :: states))
            = ((evalExcept (repliesAt answers wallets)
                (limitConsumptions config org subscription planId snapshot overrides
                  limitKeys) >>= fun consumptions => Except.ok
                (⟨walletOf org limitKey (limitPeriod config subscription limitDef),
                  resolvedMax, limitDef.overage⟩ :: consumptions)).map
              (List.map (stateOf wallets)) : Except StoreError (List LimitState)) := by
          intro state hstate
          rw [ih, hstate]
          cases evalExcept (repliesAt answers wallets) (limitConsumptions config org
            subscription planId snapshot overrides limitKeys) <;> rfl
        by_cases hunlimited : resolvedMax = -1
        · have hstate := hrest ⟨limitKey, -1, 0, limitDef.overage⟩ (by
            simp [stateOf, walletOf, hunlimited])
          simp only [ok_bind, hunlimited, if_true, evalExcept_bind, evalExcept_pure] at hstate ⊢
          exact hstate
        · have hstate := hrest ⟨limitKey, resolvedMax, consumedAt wallets
            (key (walletOf org limitKey
              (limitPeriod config subscription limitDef))), limitDef.overage⟩ (by
            simp [stateOf, walletOf, hunlimited])
          simp only [ok_bind, if_neg hunlimited, evalExcept_bind, evalExcept_pure] at hstate ⊢
          exact hstate

theorem resolveAllLimitStates_eq {entitlement planId : String} {org : ResourceRef}
    {overrides : Option TenantOverrides} {levelDefaultPlan : Option String}
    {subscription : Subscription}
    (hsubscription : repliesAt answers wallets (.getSubscription org.type org.id)
      = .ok (some subscription))
    (hplan : present (resolveEffectivePlan (some subscription) config.accessDef.plans
      (levelDefaultPlan.or config.accessDef.defaultPlan) config.now) = some planId)
    {limits : List LimitConsumption}
    (hlimits : evalExcept (repliesAt answers wallets) (resolveAllLimitConsumptions config org
      entitlement planId subscription overrides) = .ok limits) :
    evalExcept (repliesAt answers wallets)
        (resolveAllLimitStates config entitlement org overrides levelDefaultPlan)
      = .ok (limits.map (stateOf wallets)) := by
  have hmap : evalExcept (repliesAt answers wallets)
        (resolveAllLimitStates config entitlement org overrides levelDefaultPlan)
      = (evalExcept (repliesAt answers wallets) (resolveAllLimitConsumptions config org
          entitlement planId subscription overrides)).map (List.map (stateOf wallets)) := by
    unfold resolveAllLimitStates resolveAllLimitConsumptions
    refine (eval_await_bind hsubscription _).trans ?_
    simp only [hplan]
    cases config.accessDef.limitKeys entitlement with
    | nil => rfl
    | cons limitKey limitKeys =>
      simp only [evalExcept_bind]
      cases evalExcept (repliesAt answers wallets) (versionSnapshot config org planId) with
      | error error => rfl
      | ok snapshot => exact limitStates_eq _ _ _ _ _ _
  rw [hmap, hlimits]
  rfl

variable {entitlement : String} {overrides : Option TenantOverrides}

/-- Without a subscription or a plan there is no state. -/
theorem resolveAllLimitStates_nil {org : ResourceRef} {levelDefaultPlan : Option String}
    {found : Option Subscription}
    (hfound : repliesAt answers wallets (.getSubscription org.type org.id) = .ok found)
    (hplan : present (resolveEffectivePlan found config.accessDef.plans
      (levelDefaultPlan.or config.accessDef.defaultPlan) config.now) = none) :
    evalExcept (repliesAt answers wallets)
        (resolveAllLimitStates config entitlement org overrides levelDefaultPlan) = .ok [] := by
  unfold resolveAllLimitStates
  refine (eval_await_bind hfound _).trans ?_
  cases found with
  | none => rfl
  | some subscription =>
    simp only [hplan]
    rfl

/-! ### Levels -/

/-- `can` finds room in the limits that `canAndConsume` finds at a level. -/
def LevelHasRoom (answers : Answers) (wallets : InMemoryWalletStore)
    (config : AccessContextConfig) (entitlement : String) (level : ResourceRef) : Prop :=
  ∀ entry limits,
    evalExcept (repliesAt answers wallets) (resolveChainEntry config entitlement level)
      = .ok (some entry) →
    LevelLimits (repliesAt answers wallets) config entitlement entry limits →
    AllHaveRoom wallets limits

theorem levelHasRoom_of_none {level : ResourceRef}
    (h : evalExcept (repliesAt answers wallets) (resolveChainEntry config entitlement level)
      = .ok none) : LevelHasRoom answers wallets config entitlement level := by
  intro entry limits hentry
  rw [h] at hentry
  cases hentry

theorem levelHasRoom_of_some {level : ResourceRef} {entry : ChainEntry}
    {limits : List LimitConsumption}
    (hentry : evalExcept (repliesAt answers wallets) (resolveChainEntry config entitlement level)
      = .ok (some entry))
    (hlimits : LevelLimits (repliesAt answers wallets) config entitlement entry limits) :
    LevelHasRoom answers wallets config entitlement level ↔ AllHaveRoom wallets limits := by
  constructor
  · intro h
    exact h entry limits hentry hlimits
  · intro h entry' limits' hentry' hlimits'
    rw [hentry] at hentry'
    cases hentry'
    unfold LevelLimits at hlimits hlimits'
    rw [hlimits] at hlimits'
    cases hlimits'
    exact h

/-- What `resolveChainEntry` finds, from the reply of the subscription store. -/
theorem resolveChainEntry_none {level : ResourceRef}
    (h : repliesAt answers wallets (.getSubscription level.type level.id) = .ok none) :
    evalExcept (repliesAt answers wallets) (resolveChainEntry config entitlement level)
      = .ok none := by
  unfold resolveChainEntry
  exact eval_await_bind h _

theorem resolveChainEntry_some {entitlement : String} {level : ResourceRef}
    {subscription : Subscription} {overrides : Option TenantOverrides}
    (h : repliesAt answers wallets (.getSubscription level.type level.id) = .ok (some subscription))
    (hoverrides : evalExcept (repliesAt answers wallets)
      (overridesOf config level.type level.id) = .ok overrides) :
    evalExcept (repliesAt answers wallets) (resolveChainEntry config entitlement level)
      = .ok (match takenPlan config level subscription with
        | none => none
        | some planId =>
          if planLimits config planId entitlement then
            some ⟨level, subscription, planId, overrides⟩ else none) := by
  unfold resolveChainEntry
  refine (eval_await_bind h _).trans ?_
  show evalExcept _ (match takenPlan config level subscription with
    | none => _
    | some planId => _) = _
  cases takenPlan config level subscription with
  | none => rfl
  | some planId =>
    cases hlimits : planLimits config planId entitlement with
    | false => simp [hlimits]
    | true =>
      simp only [hlimits, Bool.not_true, Bool.false_eq_true, if_false, if_true, evalExcept_bind,
        hoverrides, ok_bind, evalExcept_pure]

theorem config_ok {α : Type} {p : StoreM α} (h : ConfigOnly p) :
    ∃ value, evalExcept (repliesAt answers wallets) p = .ok value :=
  h.eval_ok fun op _ => repliesAt_ok op

theorem levelDefault_or (accessDef : AccessDefinition) (type : String) :
    (accessDef.levelDefault type).or accessDef.defaultPlan = accessDef.levelDefault type := by
  unfold AccessDefinition.levelDefault
  rw [Option.or_assoc, Option.or_self]

theorem checkMultiLevelLimits_iff (entitlement : String) (chain : List AncestorChainEntry)
    (hsame : ∀ entry ∈ chain, ∀ subscription,
      repliesAt answers wallets (.getSubscription entry.type entry.id) = .ok (some subscription) →
      present (resolveEffectivePlan (some subscription) config.accessDef.plans
        (config.accessDef.levelDefault entry.type) config.now)
        = takenPlan config ⟨entry.type, entry.id⟩ subscription) :
    ∃ room, evalExcept (repliesAt answers wallets) (checkMultiLevelLimits config entitlement chain)
        = .ok room ∧
      (room = true ↔ ∀ entry ∈ chain,
        LevelHasRoom answers wallets config entitlement ⟨entry.type, entry.id⟩) := by
  induction chain with
  | nil => exact ⟨true, rfl, by simp⟩
  | cons entry chain ih =>
    obtain ⟨rest, hrest, hiff⟩ := ih fun e he => hsame e (mem_cons_of_mem entry he)
    -- a level that is passed over has room, so the rest decides
    have hpass : LevelHasRoom answers wallets config entitlement ⟨entry.type, entry.id⟩ →
        (rest = true ↔ ∀ e ∈ entry :: chain,
          LevelHasRoom answers wallets config entitlement ⟨e.type, e.id⟩) := by
      intro hroom
      rw [hiff]
      simp [hroom]
    obtain ⟨found, hfound⟩ : ∃ found : Option Subscription,
        repliesAt answers wallets (.getSubscription entry.type entry.id) = .ok found :=
      repliesAt_ok (.getSubscription entry.type entry.id)
    have hstart := fun f => @eval_await_bind _ Bool (.getSubscription entry.type entry.id) found
      hfound f
    match found, hfound, hstart with
    | none, hfound, hstart =>
      refine ⟨rest, (hstart _).trans hrest, hpass (levelHasRoom_of_none ?_)⟩
      exact resolveChainEntry_none hfound
    | some subscription, hfound, hstart =>
      obtain ⟨overrides, hoverrides⟩ := @config_ok answers wallets _ _
        (overridesOf_calls config entry.type entry.id)
      have hplan := hsame entry mem_cons_self subscription hfound
      have hentry := @resolveChainEntry_some answers wallets config entitlement
        ⟨entry.type, entry.id⟩ subscription overrides hfound hoverrides
      cases htaken : takenPlan config ⟨entry.type, entry.id⟩ subscription with
      | none =>
        rw [htaken] at hplan hentry
        refine ⟨rest, (hstart _).trans ?_, hpass (levelHasRoom_of_none hentry)⟩
        simp only [hplan]
        exact hrest
      | some planId =>
        rw [htaken] at hplan hentry
        cases hlimited : planLimits config planId entitlement with
        | false =>
          simp only [hlimited, Bool.false_eq_true, if_false] at hentry
          refine ⟨rest, (hstart _).trans ?_, hpass (levelHasRoom_of_none hentry)⟩
          simp only [hplan, hlimited, Bool.not_false, if_true]
          exact hrest
        | true =>
          simp only [hlimited, if_true] at hentry
          obtain ⟨limits, hlimits⟩ := @config_ok answers wallets _ _
            (resolveAllLimitConsumptions_calls config ⟨entry.type, entry.id⟩ entitlement
              planId subscription overrides)
          have hstates := @resolveAllLimitStates_eq answers wallets config entitlement planId
            ⟨entry.type, entry.id⟩ overrides (config.accessDef.levelDefault entry.type)
            subscription hfound (by rw [levelDefault_or, hplan]) limits hlimits
          have hroom := levelHasRoom_of_some hentry hlimits
          refine ⟨checkLimitStates (limits.map (stateOf wallets)) && rest,
            (hstart _).trans ?_, ?_⟩
          · simp only [hplan, hlimited, Bool.not_true, Bool.false_eq_true, if_false,
              evalExcept_bind, hoverrides, ok_bind, hstates]
            cases checkLimitStates (limits.map (stateOf wallets)) with
            | false => rfl
            | true => exact hrest
          · rw [Bool.and_eq_true, checkLimitStates_iff, ← hroom, hiff]
            simp

theorem chainLimits_haveRoom {levels : List ResourceRef} {chain : List ChainEntry}
    (h : evalExcept (repliesAt answers wallets) (resolveChainEntries config entitlement levels)
      = .ok chain) :
    AllHaveRoom wallets (chainLimits (repliesAt answers wallets) config entitlement chain)
      ↔ ∀ level ∈ levels, LevelHasRoom answers wallets config entitlement level := by
  induction levels generalizing chain with
  | nil =>
    cases h
    simp [chainLimits, AllHaveRoom]
  | cons level levels ih =>
    unfold resolveChainEntries at h
    simp only [evalExcept_bind, evalExcept_pure] at h
    obtain ⟨found, hfound, h⟩ := bind_eq_ok h
    obtain ⟨rest, hrest, h⟩ := bind_eq_ok h
    cases h
    cases found with
    | none =>
      show AllHaveRoom wallets (chainLimits _ _ _ rest) ↔ _
      rw [ih hrest, forall_mem_cons]
      exact (and_iff_right (levelHasRoom_of_none hfound)).symm
    | some entry =>
      obtain ⟨limits, hlimits⟩ := @config_ok answers wallets _ _
        (resolveAllLimitConsumptions_calls config entry.org entitlement entry.planId
          entry.subscription entry.overrides)
      show AllHaveRoom wallets (chainLimits _ _ _ (entry :: rest)) ↔ _
      rw [chainLimits_cons hlimits, forall_mem_cons, levelHasRoom_of_some hfound hlimits,
        ← ih hrest]
      exact forall_mem_append

variable {ancestors : Option (List AncestorChainEntry)}

theorem buildConsumptionChain_levels {org : ResourceRef} {chain : List ChainEntry}
    (hstore : config.subscriptionStore = true)
    (hancestors : evalExcept (repliesAt answers wallets) (orgChain config (some org))
      = .ok ancestors)
    (h : evalExcept (repliesAt answers wallets) (buildConsumptionChain config org entitlement)
      = .ok chain) :
    ∃ levels, evalExcept (repliesAt answers wallets) (resolveChainEntries config entitlement levels)
        = .ok chain ∧
      ∀ level, level ∈ levels ↔ level ∈ billingLevels org ancestors := by
  have hchain : evalExcept (repliesAt answers wallets) (resolveAncestorChain config org)
      = .ok ancestors := hancestors
  unfold resolveAncestorChain at hchain
  unfold buildConsumptionChain at h
  rw [if_neg (by rw [hstore]; decide)] at h
  cases hresolver : config.ancestorResolver with
  | false =>
    rw [hresolver] at hchain h
    cases hchain
    exact ⟨[org], h, fun level => Iff.rfl⟩
  | true =>
    cases hlevel : present config.tenantLevel with
    | none =>
      rw [hresolver, hlevel] at hchain h
      cases hchain
      exact ⟨[org], h, fun level => Iff.rfl⟩
    | some tenantLevel =>
      rw [hresolver, hlevel] at hchain h
      obtain ⟨found, hfound⟩ : ∃ found : List AncestorChainEntry,
          repliesAt answers wallets (.ancestorResolver tenantLevel org.id) = .ok found :=
        repliesAt_ok (.ancestorResolver tenantLevel org.id)
      replace hchain := (eval_await_bind hfound _).symm.trans hchain
      replace h := (eval_await_bind hfound _).symm.trans h
      cases hchain
      refine ⟨_, h, fun level => ?_⟩
      simp only [billingLevels, sortByDepth, mem_append, mem_map, mem_reverse,
        map_cons, mem_cons, mem_insertionSort, not_mem_nil, or_false]
      exact or_comm

/-- The limit layer of `can`: all the limits that `canAndConsume` takes from
have room. -/
theorem checkLimits_iff {resource : Option ResourceRef} {org : ResourceRef}
    {chain : List ChainEntry}
    (hlayers : LayersDecide (repliesAt answers wallets) config entitlement resource (some org)
      overrides ancestors true) (hwallets : hasWallets config = true)
    (hkeys : config.accessDef.limitKeys entitlement ≠ [])
    (hsame : SameLimits (repliesAt answers wallets) config entitlement resource)
    (hbuild : evalExcept (repliesAt answers wallets) (buildConsumptionChain config org entitlement)
      = .ok chain) :
    evalExcept (repliesAt answers wallets) (checkLimits config entitlement (some org) overrides
        ancestors) = .ok true
      ↔ AllHaveRoom wallets (chainLimits (repliesAt answers wallets) config entitlement chain) := by
  have hstores : config.walletStore = true ∧ config.subscriptionStore = true := by
    simp only [hasWallets, Bool.and_eq_true] at hwallets
    exact hwallets.1
  obtain ⟨levels, hlevels, hmem⟩ :=
    buildConsumptionChain_levels hstores.2 hlayers.ancestors hbuild
  have hlimited := hsame org overrides ancestors hlayers
  rw [chainLimits_haveRoom hlevels]
  simp only [hmem]
  -- the layer is the check of its levels: there is no store error to catch
  have hlayer : ∀ (body : StoreM Bool) (room : Bool),
      evalExcept (repliesAt answers wallets) body = .ok room →
      evalExcept (repliesAt answers wallets) (tryCatch body (onCloudError config)) = .ok room := by
    intro body room hbody
    rw [evalExcept_tryCatch, hbody]
  unfold checkLimits
  cases hk : config.accessDef.limitKeys entitlement with
  | nil => exact absurd hk hkeys
  | cons limitKey limitKeys =>
    rw [hstores.1, hstores.2]
    cases ancestors with
    | some chain =>
      obtain ⟨room, hroom, hiff⟩ := checkMultiLevelLimits_iff entitlement chain
        fun entry hentry subscription hsubscription => (hlimited ⟨entry.type, entry.id⟩
          (mem_map.mpr ⟨entry, hentry, rfl⟩) subscription hsubscription).1
      have heval := hlayer _ room hroom
      show evalExcept _ (tryCatch (checkMultiLevelLimits config entitlement chain)
        (onCloudError config)) = .ok true ↔ _
      rw [heval]
      simp only [Except.ok.injEq, hiff, billingLevels, forall_mem_map]
    | none =>
      have hsingle : ∀ states, evalExcept (repliesAt answers wallets)
            (resolveAllLimitStates config entitlement org overrides none) = .ok states →
          (evalExcept (repliesAt answers wallets) (tryCatch (do
            let walletStates ← resolveAllLimitStates config entitlement org overrides none
            return checkLimitStates walletStates) (onCloudError config)) = .ok true ↔
          checkLimitStates states = true) := by
        intro states hstates
        rw [hlayer _ (checkLimitStates states) (by
          rw [evalExcept_bind, hstates]
          rfl)]
        simp
      simp only [billingLevels, mem_singleton, forall_eq]
      obtain ⟨found, hfound⟩ : ∃ found : Option Subscription,
          repliesAt answers wallets (.getSubscription org.type org.id) = .ok found :=
        repliesAt_ok (.getSubscription org.type org.id)
      have hnothing : evalExcept (repliesAt answers wallets)
            (resolveAllLimitStates config entitlement org overrides none) = .ok [] →
          LevelHasRoom answers wallets config entitlement org →
          (evalExcept (repliesAt answers wallets) (tryCatch (do
            let walletStates ← resolveAllLimitStates config entitlement org overrides none
            return checkLimitStates walletStates) (onCloudError config)) = .ok true ↔
          LevelHasRoom answers wallets config entitlement org) := by
        intro hstates hroom
        rw [hsingle [] hstates]
        exact iff_of_true rfl hroom
      cases found with
      | none =>
        exact hnothing (resolveAllLimitStates_nil hfound rfl)
          (levelHasRoom_of_none (resolveChainEntry_none hfound))
      | some subscription =>
        have hsub := hlimited org (by simp [billingLevels]) subscription hfound
        have hshown : present (resolveEffectivePlan (some subscription)
            config.accessDef.plans config.accessDef.defaultPlan config.now)
            = takenPlan config org subscription := hsub.1
        have hoverrides : evalExcept (repliesAt answers wallets)
            (overridesOf config org.type org.id) = .ok overrides := hlayers.overrides
        have hentry := @resolveChainEntry_some answers wallets config entitlement org
          subscription overrides hfound hoverrides
        cases htaken : takenPlan config org subscription with
        | none =>
          rw [htaken] at hshown hentry
          exact hnothing (resolveAllLimitStates_nil hfound hshown)
            (levelHasRoom_of_none hentry)
        | some planId =>
          rw [htaken] at hshown hentry
          cases hplan : planLimits config planId entitlement with
          | false =>
            simp only [hplan, Bool.false_eq_true, if_false] at hentry
            have hnone := hsub.2 rfl planId htaken hplan
            exact hnothing (resolveAllLimitStates_eq hfound hshown hnone)
              (levelHasRoom_of_none hentry)
          | true =>
            simp only [hplan, if_true] at hentry
            obtain ⟨limits, hlimits⟩ := @config_ok answers wallets _ _
              (resolveAllLimitConsumptions_calls config org entitlement planId
                subscription overrides)
            have hstates := @resolveAllLimitStates_eq answers wallets config entitlement
              planId org overrides none subscription hfound hshown limits hlimits
            refine (hsingle _ hstates).trans ?_
            rw [checkLimitStates_iff, levelHasRoom_of_some hentry hlimits]

/-! ### Taking from all limits -/

/-- The wallets after every limit took the amount. -/
def takeAll (amount : ℚ) :
    List LimitConsumption → InMemoryWalletStore → Option InMemoryWalletStore
  | [], wallets => some wallets
  | lc :: limits, wallets =>
    if lc.effectiveMax = -1 then takeAll amount limits wallets
    else if Admits lc (wallets.getConsumption lc.wallet) amount then
      takeAll amount limits (wallets.set (key lc.wallet)
        (wallets.getConsumption lc.wallet + amount))
    else none

variable (amount : ℚ)

theorem takeAll_append (limits limits' : List LimitConsumption) (wallets : InMemoryWalletStore) :
    takeAll amount (limits ++ limits') wallets
      = (takeAll amount limits wallets).bind (takeAll amount limits') := by
  induction limits generalizing wallets with
  | nil => rfl
  | cons lc limits ih =>
    simp only [cons_append, takeAll]
    split
    · exact ih wallets
    · split
      · exact ih _
      · rfl

theorem forall_position_cons {α : Type} {P : List α → α → Prop} (a : α) (as : List α) :
    (∀ before x after, a :: as = before ++ x :: after → P before x)
      ↔ P [] a ∧ ∀ before x after, as = before ++ x :: after → P (a :: before) x := by
  constructor
  · intro h
    exact ⟨h [] a as rfl, fun before x after heq => h (a :: before) x after (by rw [heq]; rfl)⟩
  · intro h before x after heq
    cases before with
    | nil =>
      injection heq with hx _
      exact hx ▸ h.1
    | cons b before =>
      injection heq with hb hrest
      exact hb ▸ h.2 before x after hrest

theorem countedBefore_skip {lc₀ : LimitConsumption} (h : lc₀.effectiveMax = -1)
    (before : List LimitConsumption) (lc : LimitConsumption) :
    countedBefore wallets amount (lc₀ :: before) lc = countedBefore wallets amount before lc := by
  simp [countedBefore, finiteLimits, h]

theorem countedBefore_take {lc₀ : LimitConsumption} (h : lc₀.effectiveMax ≠ -1)
    (before : List LimitConsumption) (lc : LimitConsumption) :
    countedBefore wallets amount (lc₀ :: before) lc
      = countedBefore (wallets.set (key lc₀.wallet)
          (wallets.getConsumption lc₀.wallet + amount)) amount before lc := by
  have hfinite : finiteLimits (lc₀ :: before) = lc₀ :: finiteLimits before := by
    simp [finiteLimits, h]
  unfold countedBefore
  rw [hfinite, consumedAt_set, walletKeys, map_cons, count_cons]
  by_cases hkey : key lc.wallet = key lc₀.wallet
  · have hvalue : wallets.getConsumption lc₀.wallet
        = consumedAt wallets (key lc₀.wallet) := rfl
    rw [if_pos hkey, hvalue, hkey]
    simp only [beq_self_eq_true, if_true, walletKeys]
    push_cast
    ring
  · have hne : ¬ (key lc₀.wallet == key lc.wallet) := by
      simpa using fun h => hkey h.symm
    rw [if_neg hkey, if_neg hne]
    rfl

/-- All limits take the amount when each of them does at its turn. -/
theorem takeAll_iff (limits : List LimitConsumption) (wallets : InMemoryWalletStore) :
    (takeAll amount limits wallets).isSome ↔ ∀ before lc after, limits = before ++ lc :: after →
        Admits lc (countedBefore wallets amount before lc) amount = true := by
  induction limits generalizing wallets with
  | nil => simp [takeAll]
  | cons lc limits ih =>
    rw [forall_position_cons]
    have hfirst : countedBefore wallets amount [] lc = wallets.getConsumption lc.wallet := by
      simp [countedBefore, finiteLimits, walletKeys, consumedAt,
        getConsumption]
    rw [hfirst]
    unfold takeAll
    by_cases hunlimited : lc.effectiveMax = -1
    · rw [if_pos hunlimited, ih]
      simp only [countedBefore_skip amount hunlimited]
      exact (and_iff_right (by simp [Admits, hunlimited])).symm
    · rw [if_neg hunlimited]
      simp only [countedBefore_take amount hunlimited]
      cases hadmits : Admits lc (wallets.getConsumption lc.wallet) amount with
      | false => simp
      | true =>
        rw [if_pos rfl, ih]
        exact (and_iff_right rfl).symm

/-! ### `canAndConsume` takes from all limits -/

variable {reply : Replies}

theorem rollback_ok (consumed : List WalletRef) (tally : Tally) :
    wpExcept (tallyContract reply False) (rollbackCascadedConsumptions amount consumed)
      (fun r _ => r = .ok ()) tally := by
  induction consumed generalizing tally with
  | nil => exact rfl
  | cons wallet consumed ih =>
    show wpExcept _ (tryCatch _ _ >>= _) _ _
    rw [wpExcept_bind]
    refine (wpExcept_tryCatch _ _ _ _).mpr ⟨trivial, fun result tally' _ => ?_⟩
    cases result with
    | error error => exact ih tally'
    | ok taken => exact ih tally'

/-- The limits of a level took the amount, or one of them did not. -/
def TakeOutcome (taken : Option InMemoryWalletStore)
    (r : Except StoreError (Option (List WalletRef))) (tally : Tally) : Prop :=
  match taken with
  | some wallets => (∃ allConsumed, r = .ok (some allConsumed)) ∧ tally.wallets = wallets
  | none => r = .ok none

theorem consumeLimits_take (limits : List LimitConsumption) (consumed : List WalletRef)
    (tally : Tally) :
    wpExcept (tallyContract reply False) (consumeLimits amount limits consumed)
      (TakeOutcome (takeAll amount limits tally.wallets)) tally := by
  induction limits generalizing consumed tally with
  | nil => exact ⟨⟨consumed, rfl⟩, rfl⟩
  | cons lc limits ih =>
    have hrefuse : ∀ tally', wpExcept (tallyContract reply False) (do
        rollbackCascadedConsumptions amount consumed
        return none) (TakeOutcome none) tally' := by
      intro tally'
      rw [wpExcept_bind]
      refine wpExcept_mono (rollback_ok amount consumed tally') fun r tally'' hr => ?_
      rw [hr]
      exact rfl
    let okFirst (p : Bool × InMemoryWalletStore) : Except StoreError Bool := .ok p.1
    unfold consumeLimits takeAll
    by_cases hunlimited : lc.effectiveMax = -1
    · rw [if_pos hunlimited, if_pos hunlimited]
      exact ih consumed tally
    · rw [if_neg hunlimited, if_neg hunlimited]
      by_cases hzero : lc.effectiveMax = 0
      · rw [if_pos hzero, if_neg (by simp [Admits, hzero])]
        exact hrefuse tally
      · rw [if_neg hzero, wpExcept_bind]
        refine underCap_spec ?_ (fun hmay => hmay.elim)
        cases hcap : capAdmits lc (tally.wallets.getConsumption lc.wallet) amount with
        | false =>
          have hadmits : Admits lc (tally.wallets.getConsumption lc.wallet) amount = false := by
            simp [Admits, hunlimited, hcap]
          rw [hadmits]
          exact hrefuse tally
        | true =>
          refine (wpExcept_bind _ _ _ _).mpr ⟨trivial, fun result tally' hpost => ?_⟩
          cases hpost with
          | inr hfailed => exact hfailed.1.elim
          | inl hhandled =>
            by_cases hfits : tally.wallets.getConsumption lc.wallet + amount ≤ consumeBound lc
            · have hconsume := consume_fits hfits
              have hresult : result = .ok true :=
                hhandled.1.trans (congrArg okFirst hconsume)
              have hset : tally'.wallets = tally.wallets.set
                  (key lc.wallet)
                  (tally.wallets.getConsumption lc.wallet + amount) := by
                rw [hhandled.2]
                exact congrArg Prod.snd hconsume
              have hadmits : Admits lc (tally.wallets.getConsumption lc.wallet) amount
                  = true := by simp [Admits, hzero, hcap, hfits]
              rw [hadmits]
              have hrest := ih (consumed ++ [lc.wallet]) tally'
              rw [hset] at hrest
              subst hresult
              exact hrest
            · have hconsume := consume_over hfits
              have hresult : result = .ok false :=
                hhandled.1.trans (congrArg okFirst hconsume)
              have hadmits : Admits lc (tally.wallets.getConsumption lc.wallet) amount
                  = false := by simp [Admits, hunlimited, hfits]
              rw [hadmits]
              subst hresult
              exact hrefuse tally'

theorem consumeChain_take (hreply : ∀ op, ∃ value, reply op = .ok value) (amount : ℚ)
    (chain : List ChainEntry) (consumed : List WalletRef) (tally : Tally) :
    wpExcept (tallyContract reply False) (consumeChain config entitlement amount chain consumed)
      (fun r _ => r = .ok (takeAll amount (chainLimits reply config entitlement chain)
        tally.wallets).isSome) tally := by
  induction chain generalizing consumed tally with
  | nil => exact rfl
  | cons entry chain ih =>
    unfold consumeChain
    refine config_bind (resolveAllLimitConsumptions_calls config _ _ _ _ _)
      (fun limits hlimits => ?_) (fun error herror => ?_) (fun hmay => hmay.elim)
    · rw [wpExcept_bind, chainLimits_cons hlimits, takeAll_append]
      refine wpExcept_mono (consumeLimits_take amount limits consumed tally)
        fun r tally' htake => ?_
      unfold TakeOutcome at htake
      cases htaken : takeAll amount limits tally.wallets with
      | none =>
        rw [htaken] at htake
        rw [htake]
        exact rfl
      | some wallets =>
        rw [htaken] at htake
        obtain ⟨⟨allConsumed, rfl⟩, rfl⟩ := htake
        exact ih allConsumed tally'
    · obtain ⟨limits, hlimits⟩ := CallsOnly.eval_ok
        (resolveAllLimitConsumptions_calls config entry.org entitlement entry.planId
          entry.subscription entry.overrides) (fun op _ => hreply op)
      rw [hlimits] at herror
      cases herror

theorem layersDecide_unique {resource org org' : Option ResourceRef}
    {overrides overrides' : Option TenantOverrides}
    {ancestors ancestors' : Option (List AncestorChainEntry)} {allowed allowed' : Bool}
    (h : LayersDecide reply config entitlement resource org overrides ancestors allowed)
    (h' : LayersDecide reply config entitlement resource org' overrides' ancestors' allowed') :
    org = org' ∧ allowed = allowed' := by
  have horg := h.org
  rw [h'.org] at horg
  cases horg
  have hoverrides := h.overrides
  rw [h'.overrides] at hoverrides
  cases hoverrides
  have hancestors := h.ancestors
  rw [h'.ancestors] at hancestors
  cases hancestors
  have hallowed := h.allowed
  rw [h'.allowed] at hallowed
  cases hallowed
  exact ⟨rfl, rfl⟩

/-- What lets `canAndConsume` take the amount once the layers allow it. -/
def Takes (reply : Replies) (config : AccessContextConfig) (entitlement : String) (amount : ℚ)
    (wallets : InMemoryWalletStore) (org : Option ResourceRef) : Prop :=
  hasWallets config = false ∨ config.accessDef.limitKeys entitlement = [] ∨
  ∃ level chain, org = some level ∧
    evalExcept reply (buildConsumptionChain config level entitlement) = .ok chain ∧ chain ≠ [] ∧
    (takeAll amount (chainLimits reply config entitlement chain) wallets).isSome

variable {resource org : Option ResourceRef}

theorem canAndConsume_take (hreply : ∀ op, ∃ value, reply op = .ok value) {allowed : Bool}
    (hlayers : LayersDecide reply config entitlement resource org overrides ancestors allowed)
    (amount : ℚ) (tally : Tally) :
    wpExcept (tallyContract reply False) (canAndConsume config entitlement resource amount)
      (fun r _ => r = .ok true ↔
        allowed = true ∧ Takes reply config entitlement amount tally.wallets org) tally := by
  refine canAndConsume_wp hreply (fun hmay => hmay.elim) (fun org' _ _ hdenied => ?_)
    (fun org' _ _ hallowed hfree => ?_) (fun _ _ hallowed hwallets hkeys => ?_)
    (fun level _ _ chain hallowed hwallets hkeys hbuild => ?_)
  · have hsame := layersDecide_unique hlayers hdenied
    rw [hsame.2]
    simp
  · have hsame := layersDecide_unique hlayers hallowed
    rw [hsame.2]
    refine iff_of_true rfl ⟨rfl, ?_⟩
    cases hfree with
    | inl hnone => exact .inl hnone
    | inr hnil => exact .inr (.inl hnil)
  · have hsame := layersDecide_unique hlayers hallowed
    rw [hsame.1]
    simp [Takes, hwallets, hkeys]
  · have hsame := layersDecide_unique hlayers hallowed
    have htakes : (allowed = true ∧ Takes reply config entitlement amount tally.wallets org) ↔
        chain ≠ [] ∧
        (takeAll amount (chainLimits reply config entitlement chain) tally.wallets).isSome := by
      rw [hsame.1, hsame.2]
      simp [Takes, hwallets, hkeys, hbuild]
    split
    · rename_i hempty
      rw [htakes]
      simp [isEmpty_iff.mp hempty]
    · rename_i hnonempty
      rw [wpExcept_tryCatch]
      refine wpExcept_mono (consumeChain_take hreply amount chain [] tally) fun r tally' hr => ?_
      rw [hr]
      show Except.ok _ = Except.ok true ↔ _
      rw [htakes, Except.ok.injEq]
      exact (and_iff_right fun hnil => hnonempty (isEmpty_iff.mpr hnil)).symm

theorem handleTally_keeps {mayFail : Prop} (op : stores.Op) (tally : Tally) :
    (tallyContract reply mayFail).post op tally (handleTally reply op tally).1
      (handleTally reply op tally).2 := .inl ⟨rfl, rfl⟩

theorem returnsTrue_canAndConsume_iff {allowed : Bool}
    (hlayers : LayersDecide (repliesAt answers wallets) config entitlement resource
      org overrides ancestors allowed) (amount : ℚ) :
    ReturnsTrue answers wallets (canAndConsume config entitlement resource amount) ↔
      allowed = true ∧ Takes (repliesAt answers wallets) config entitlement amount wallets org := by
  have hwp := canAndConsume_take repliesAt_ok hlayers amount ⟨wallets, false, false, []⟩
  have hrun := Program.run_of_wp id (fun op tally _ => handleTally_keeps op tally) _ hwp
  have hview := Program.run_view Tally.wallets
    (fun op tally => show handleStore answers.replies op tally.wallets
      = ((handleTally (repliesAt answers wallets) op tally).1,
        (handleTally (repliesAt answers wallets) op tally).2.wallets) by cases op <;> rfl)
    (canAndConsume config entitlement resource amount).run ⟨wallets, false, false, []⟩
  unfold ReturnsTrue
  rw [show wallets = (⟨wallets, false, false, []⟩ : Tally).wallets from rfl, hview]
  exact hrun

/-! ### The boundary of a limit -/

theorem hasRoom_iff (lc : LimitConsumption) (consumed : ℚ) :
    HasRoom lc consumed = true ↔ lc.effectiveMax = -1 ∨ (lc.effectiveMax ≠ 0 ∧
      (consumed < lc.effectiveMax ∨ ∃ overage, lc.overage = some overage ∧
        ∀ cap, overage.cap = some cap →
          (overageCost overage (consumed - lc.effectiveMax)).ge cap = false)) := by
  unfold HasRoom
  simp only [checkLimitStates]
  by_cases hzero : lc.effectiveMax = 0
  · simp [hzero]
  · by_cases hunlimited : lc.effectiveMax = -1
    · simp [hunlimited]
    · by_cases hroom : consumed < lc.effectiveMax
      · simp [hzero, hunlimited, hroom]
      · cases hoverage : lc.overage with
        | none => simp [hzero, hunlimited, hroom, not_lt.mp hroom]
        | some overage =>
          cases hcap : overage.cap with
          | none => simp [hzero, hunlimited, hroom, hcap]
          | some cap => simp [hzero, hunlimited, hroom, not_lt.mp hroom, hcap]

/-- The two questions about a limit have one answer. -/
theorem boundaryAgrees_iff (lc : LimitConsumption) (consumed counted : ℚ) :
    BoundaryAgrees lc consumed counted
      ↔ (HasRoom lc consumed = true ↔ Admits lc counted 1 = true) := by
  rw [hasRoom_iff]
  unfold BoundaryAgrees
  by_cases hunlimited : lc.effectiveMax = -1
  · simp [hunlimited, Admits]
  · by_cases hzero : lc.effectiveMax = 0
    · simp [hzero, Admits]
    · cases hoverage : lc.overage with
      | none => simp [hunlimited, hzero, hoverage, Admits, capAdmits, consumeBound]
      | some overage =>
        cases hcap : overage.cap with
        | none => simp [hunlimited, hzero, hoverage, hcap, Admits, capAdmits, consumeBound]
        | some cap => simp [hunlimited, hzero, hoverage, hcap, Admits, capAdmits, consumeBound]

theorem allHaveRoom_iff :
    AllHaveRoom wallets limits ↔ ∀ before lc after, limits = before ++ lc :: after →
      HasRoom lc (consumedAt wallets (key lc.wallet)) = true := by
  constructor
  · intro h before lc after heq
    exact h lc (by rw [heq]; simp)
  · intro h lc hlc
    obtain ⟨before, after, heq⟩ := append_of_mem hlc
    exact h before lc after heq

/-- All limits give one answer to the two questions where each of them
does, or where each question is denied by one of them. -/
theorem boundariesAgree_iff : BoundariesAgree wallets limits ↔
      (AllHaveRoom wallets limits ↔ (takeAll 1 limits wallets).isSome) := by
  rw [takeAll_iff]
  unfold BoundariesAgree
  simp only [boundaryAgrees_iff]
  constructor
  · intro h
    cases h with
    | inl hagree =>
      rw [allHaveRoom_iff]
      exact forall_congr' fun before => forall_congr' fun lc => forall_congr' fun after =>
        forall_congr' fun heq => hagree before lc after heq
    | inr hdenied =>
      obtain ⟨⟨lc, hlc, hroom⟩, before, lc', after, heq, htake⟩ := hdenied
      refine iff_of_false (fun h => ?_) (fun h => ?_)
      · rw [h lc hlc] at hroom
        cases hroom
      · rw [h before lc' after heq] at htake
        cases htake
  · intro h
    by_cases hroom : AllHaveRoom wallets limits
    · left
      intro before lc after heq
      exact iff_of_true ((allHaveRoom_iff limits).mp hroom before lc after heq)
        (h.mp hroom before lc after heq)
    · right
      have htake : ¬ ∀ before lc after, limits = before ++ lc :: after →
          Admits lc (countedBefore wallets 1 before lc) 1 = true := fun ht => hroom (h.mpr ht)
      simp only [AllHaveRoom, not_forall] at hroom htake
      obtain ⟨lc, hlc, hfull⟩ := hroom
      obtain ⟨before, lc', after, heq, hrefused⟩ := htake
      exact ⟨⟨lc, hlc, by simpa using hfull⟩, before, lc', after, heq, by simpa using hrefused⟩

/-! ### `can` against `canAndConsume` -/

theorem eval_can {allowed : Bool}
    (h : LayersDecide reply config entitlement resource org overrides ancestors allowed) :
    evalExcept reply (can config entitlement resource)
      = if allowed then evalExcept reply (checkLimits config entitlement org overrides ancestors)
        else .ok false := by
  unfold can
  rw [evalExcept_bind, h.org, ok_bind, evalExcept_bind, h.overrides, ok_bind, evalExcept_bind,
    h.ancestors, ok_bind, evalExcept_bind, h.allowed, ok_bind]
  cases allowed <;> rfl

theorem checkLimits_free (horg : evalExcept reply (resolveOrg config resource) = .ok org)
    (hfree : hasWallets config = false ∨ config.accessDef.limitKeys entitlement = [] ∨ org = none) :
    evalExcept reply (checkLimits config entitlement org overrides ancestors) = .ok true := by
  unfold checkLimits
  split
  · rename_i hkeys hstores
    rcases hfree with hnone | hnil | horg'
    · -- no org resolver, so there is no org
      simp only [hasWallets, hstores, Bool.true_and] at hnone
      unfold resolveOrg at horg
      rw [hnone] at horg
      cases horg
    · rw [hnil] at hkeys
      cases hkeys
    · cases horg'
  · rfl

theorem team_sameLimits (seats : LimitDef) (wallets : InMemoryWalletStore) :
    SameLimits (repliesAt teamAnswers wallets) (teamConfig seats) "team:invite" none := by
  intro org overrides ancestors hlayers level hlevel subscription hsubscription
  have horg : (some ⟨"team", "t1"⟩ : Option ResourceRef) = some org := Except.ok.inj hlayers.org
  cases horg
  have hancestors : none = ancestors := Except.ok.inj hlayers.ancestors
  subst hancestors
  have hteam : level = ⟨"team", "t1"⟩ := mem_singleton.mp hlevel
  subst hteam
  have hfound : (some ⟨"pro", 0, none, .empty⟩ : Option Subscription) = some subscription :=
    Except.ok.inj hsubscription
  cases hfound
  refine ⟨rfl, fun _ planId hplan hlimits => ?_⟩
  have hpro : some "pro" = some planId := hplan
  cases hpro
  cases hlimits

/-- A plan that says nothing about seats. -/
def noSeatsConfig : AccessContextConfig :=
  { teamConfig ⟨5, none, none⟩ with
    accessDef :=
      { (teamConfig ⟨5, none, none⟩).accessDef with
        plans := some (.ofList [("pro", ⟨none, none⟩)]) } }

end Vertz.Proofs
