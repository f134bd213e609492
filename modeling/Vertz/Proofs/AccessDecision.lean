import Vertz.Lib.Except
import Vertz.Spec.AccessDecision

/-!
# `Vertz.Proofs.AccessDecision`: `can` against `check`

The two run the same four layers. Each layer of `check` takes the denials
so far and adds its own; `Passes` says that it leaves none.
-/

namespace Vertz.Proofs

open Vertz.Lib
open Vertz.Server.Auth
open Vertz.Spec

variable {reply : Replies} {config : AccessContextConfig}

@[simp] theorem evalExcept_await (reply : Replies) (op : StoreOp) :
    evalExcept reply (await op) = reply op := rfl

/-- A call whose reply is known. -/
theorem eval_await_bind {α : Type} {op : StoreOp} {value : op.Result}
    (h : reply op = .ok value) (f : op.Result → StoreM α) :
    evalExcept reply (await op >>= f) = evalExcept reply (f value) := by
  rw [evalExcept_bind, evalExcept_await, h]
  rfl

/-- The layer leaves no denial. -/
def Passes (reply : Replies) (layer : StoreM Denials) : Prop :=
  ∃ denials, evalExcept reply layer = .ok denials ∧ denials.reasons = []

/-! ### Flags -/

/-- Collecting what is off finds nothing exactly when a search for one that
is off does. -/
theorem collectDisabled_eq_nil_iff (enabled : String → StoreM Bool) (flags : List String) :
    evalExcept reply (collectDisabled enabled flags) = .ok []
      ↔ evalExcept reply (flags.allM enabled) = .ok true := by
  induction flags with
  | nil => simp [collectDisabled, List.allM]
  | cons flag flags ih =>
    unfold collectDisabled List.allM
    simp only [evalExcept_bind, evalExcept_pure]
    cases evalExcept reply (enabled flag) with
    | error error => simp [bind, Except.bind]
    | ok on =>
      cases on with
      | false =>
        cases evalExcept reply (collectDisabled enabled flags) <;> simp [bind, Except.bind]
      | true =>
        show (evalExcept reply (collectDisabled enabled flags) >>= pure) = _ ↔ _
        rw [bind_pure]
        exact ih

variable (denials : Denials)

theorem passes_pure_iff : Passes reply (pure denials) ↔ denials.reasons = [] := by
  constructor
  · intro h
    obtain ⟨d, hd, hnil⟩ := h
    cases hd
    exact hnil
  · intro h
    exact ⟨denials, rfl, h⟩

theorem passes_bind_iff {α : Type} (p : StoreM α) (f : α → StoreM Denials) :
    Passes reply (p >>= f) ↔ ∃ a, evalExcept reply p = .ok a ∧ Passes reply (f a) := by
  unfold Passes
  rw [evalExcept_bind]
  constructor
  · intro h
    obtain ⟨d, hd, hnil⟩ := h
    obtain ⟨a, ha, hfa⟩ := bind_eq_ok hd
    exact ⟨a, ha, d, hfa, hnil⟩
  · intro h
    obtain ⟨a, ha, d, hd, hnil⟩ := h
    refine ⟨d, ?_, hnil⟩
    rw [ha]
    exact hd

theorem flags_passes_iff (entDef : EntitlementDef) (resolvedOrg : Option ResourceRef)
    (chain : Option (List AncestorChainEntry)) (denials : Denials) :
    Passes reply (checkFlagsForCheck config entDef resolvedOrg chain denials)
      ↔ denials.reasons = [] ∧ evalExcept reply (checkFlags config entDef resolvedOrg chain)
        = .ok true := by
  -- whatever says which flags are on, the layer passes when none is off
  have hcollect : ∀ (enabled : String → StoreM Bool) (flags : List String) (deny : List String → Denials),
      (∀ disabled, (deny disabled).reasons ≠ []) →
      (Passes reply (do
          let disabledFlags ← collectDisabled enabled flags
          return if disabledFlags.isEmpty then denials else deny disabledFlags)
        ↔ denials.reasons = [] ∧ evalExcept reply (flags.allM enabled) = .ok true) := by
    intro enabled flags deny hdeny
    rw [passes_bind_iff, ← collectDisabled_eq_nil_iff]
    constructor
    · intro h
      obtain ⟨disabled, heval, hpass⟩ := h
      rw [passes_pure_iff] at hpass
      cases disabled with
      | nil => exact ⟨hpass, heval⟩
      | cons flag disabled => exact absurd hpass (hdeny _)
    · intro h
      exact ⟨[], h.2, (passes_pure_iff _).mpr h.1⟩
  unfold checkFlagsForCheck checkFlags
  split
  · cases resolvedOrg with
    | none => simp [passes_pure_iff]
    | some org =>
      cases chain with
      | some chain => exact hcollect _ _ _ (by simp)
      | none => exact hcollect _ _ _ (by simp)
  · simp [passes_pure_iff]

/-! ### Roles -/

/-- What the role layer of `check` finds: a role of the entitlement, or
the empty role that stands for one that is not inherited. -/
theorem hasRoleForCheck_iff (userId : String) (entDef : EntitlementDef) (entitlement : String)
    (resource : Option ResourceRef) (hroles : entDef.roles ≠ []) :
    evalExcept reply (hasRoleForCheck config userId entDef entitlement resource) = .ok true
      ↔ evalExcept reply (checkRoles config userId entDef entitlement resource) = .ok true
        ∨ forcedRole reply config userId entDef entitlement resource := by
  cases hlist : entDef.roles with
  | nil => exact absurd hlist hroles
  | cons first rest =>
    unfold hasRoleForCheck checkRoles forcedRole
    rw [hlist]
    cases resource with
    | none => simp
    | some resource =>
      simp only [evalExcept_bind, evalExcept_await]
      cases hreply : reply (.getEffectiveRole userId resource.type resource.id) with
      | error error => simp [repliedRole, hreply, bind, Except.bind]
      | ok found =>
        cases hrole : present found with
        | none => simp [repliedRole, hreply, hrole, bind, Except.bind]
        | some role =>
          by_cases htype : resource.type = entitlementEntity entitlement
          · simp [hrole, htype, bind, Except.bind]
          · cases hinherited : present (resolveInheritedRole resource.type role
                (entitlementEntity entitlement) config.accessDef) <;>
              simp [repliedRole, hreply, hrole, htype, hinherited, bind, Except.bind]

theorem roles_passes_iff (userId : String) (entDef : EntitlementDef) (entitlement : String)
    (resource : Option ResourceRef) (denials : Denials) :
    Passes reply (checkRolesForCheck config userId entDef entitlement resource denials)
      ↔ denials.reasons = [] ∧
        (evalExcept reply (checkRoles config userId entDef entitlement resource) = .ok true
          ∨ forcedRole reply config userId entDef entitlement resource) := by
  unfold checkRolesForCheck
  by_cases hroles : entDef.roles = []
  · have hallow : evalExcept reply (checkRoles config userId entDef entitlement resource)
        = .ok true := by
      unfold checkRoles
      rw [hroles]
      rfl
    simp [hroles, passes_pure_iff, hallow]
  · rw [if_neg (by simpa using hroles), ← hasRoleForCheck_iff userId entDef entitlement resource hroles,
      passes_bind_iff]
    constructor
    · intro h
      obtain ⟨has, heval, hpass⟩ := h
      cases has with
      | true => exact ⟨(passes_pure_iff _).mp hpass, heval⟩
      | false => exact absurd ((passes_pure_iff _).mp hpass) (by simp)
    · intro h
      exact ⟨true, h.2, (passes_pure_iff _).mpr h.1⟩

/-! ### Plan -/

theorem passes_denied_iff {planDenied : StoreM Bool} {denials denied : Denials}
    (hdenied : denied.reasons ≠ []) :
    Passes reply (do
        let denies ← planDenied
        if denies then return denied
        return denials)
      ↔ denials.reasons = [] ∧ evalExcept reply planDenied = .ok false := by
  rw [passes_bind_iff]
  constructor
  · intro h
    obtain ⟨denies, heval, hpass⟩ := h
    cases denies with
    | true => exact absurd ((passes_pure_iff _).mp hpass) hdenied
    | false => exact ⟨(passes_pure_iff _).mp hpass, heval⟩
  · intro h
    exact ⟨false, h.2, (passes_pure_iff _).mpr h.1⟩

theorem evalExcept_not_iff (p : StoreM Bool) :
    evalExcept reply (do let has ← p; pure !has) = .ok false ↔ evalExcept reply p = .ok true := by
  rw [evalExcept_bind]
  cases evalExcept reply p with
  | error error => simp [bind, Except.bind]
  | ok has => cases has <;> simp [bind, Except.bind]

variable (entitlement : String)

theorem plan_passes_iff (resolvedOrg : Option ResourceRef) (overrides : Option TenantOverrides)
    (chain : Option (List AncestorChainEntry)) (denials : Denials) :
    Passes reply (checkPlanForCheck config entitlement resolvedOrg overrides chain denials)
      ↔ denials.reasons = []
        ∧ evalExcept reply (checkPlan config entitlement resolvedOrg overrides chain)
          = .ok true := by
  unfold checkPlanForCheck checkPlan
  split
  · refine Iff.trans (passes_denied_iff ?_) (and_congr_right fun _ => ?_)
    · simp
    unfold planDeniedForCheck
    cases resolvedOrg with
    | none => simp
    | some org =>
      cases chain with
      | some chain => exact evalExcept_not_iff _
      | none =>
        show evalExcept reply (await _ >>= fun _ => _) = _
          ↔ evalExcept reply (await _ >>= fun _ => _) = _
        rw [evalExcept_bind, evalExcept_bind, bind_eq_ok_iff, bind_eq_ok_iff]
        refine exists_congr fun subscription => and_congr_right fun _ => ?_
        cases present (resolveEffectivePlan subscription config.accessDef.plans
            config.accessDef.defaultPlan config.now) with
        | none => simp
        | some planId => exact evalExcept_not_iff _
  · simp [passes_pure_iff]

/-! ### Limits -/

@[simp] theorem reasons_setLimit (limit : LimitMeta) :
    (denials.setLimit limit).reasons = denials.reasons := rfl

@[simp] theorem reasons_push (reason : DenialReason) :
    (denials.push reason).reasons = denials.reasons ++ [reason] := rfl

theorem reasons_checkSingleLevel (walletStates : List LimitState) (denials : Denials) :
    (checkSingleLevelLimitsForCheck walletStates denials).reasons
      = if checkLimitStates walletStates then denials.reasons
        else denials.reasons ++ [.limitReached] := by
  induction walletStates generalizing denials with
  | nil => rfl
  | cons ws walletStates ih =>
    unfold checkSingleLevelLimitsForCheck checkLimitStates
    by_cases hzero : ws.max = 0
    · cases ws.overage <;> simp [hzero]
    · by_cases hunlimited : ws.max = -1
      · cases denials.details.limit <;> simp [hunlimited, ih]
      · by_cases hover : ws.consumed ≥ ws.max
        · cases ws.overage with
          | none => simp [hzero, hunlimited, hover]
          | some overage =>
            cases hcap : overage.cap with
            | none => simp [hzero, hunlimited, hover, hcap, ih]
            | some cap =>
              cases hge : (overageCost overage (ws.consumed - ws.max)).ge cap <;>
                simp [hzero, hunlimited, hover, hcap, hge, ih]
        · cases denials.details.limit <;> simp [hzero, hunlimited, hover, ih]

@[simp] theorem evalExcept_withDenials {α : Type} (p : StoreM α) :
    evalExcept reply (withDenials denials p) = (evalExcept reply p).mapError (·, denials) := by
  show Program.eval reply ((fun r => r.mapError (·, denials)) <$> p.run) = _
  exact Program.eval_bind reply p.run _

/-- What the levels of a check come to, given what they come to in `can`. -/
def LimitsAgree (denials : Denials) :
    Except StoreError Bool → Except (StoreError × Denials) Denials → Prop
  | .ok true, .ok denials' => denials'.reasons = denials.reasons
  | .ok false, .ok denials' => denials'.reasons = denials.reasons ++ [.limitReached]
  | .error error, .error (error', denials') => error' = error ∧ denials'.reasons = denials.reasons
  | _, _ => False

theorem LimitsAgree.congr {denials denials' : Denials} (h : denials.reasons = denials'.reasons)
    {r : Except StoreError Bool} {r' : Except (StoreError × Denials) Denials}
    (hagree : LimitsAgree denials r r') : LimitsAgree denials' r r' := by
  unfold LimitsAgree at hagree ⊢
  rwa [h] at hagree

/-- The same step first in both. -/
theorem LimitsAgree.bind {α : Type} {denials : Denials} {r : Except StoreError α}
    {f : α → Except StoreError Bool} {f' : α → Except (StoreError × Denials) Denials}
    (h : ∀ a, LimitsAgree denials (f a) (f' a)) :
    LimitsAgree denials (r >>= f) (r.mapError (·, denials) >>= f') := by
  cases r with
  | error error => exact ⟨rfl, rfl⟩
  | ok a => exact h a

theorem multiLevel_agree (chain : List AncestorChainEntry) (denials : Denials)
    (hfresh : .limitReached ∉ denials.reasons) :
    LimitsAgree denials (evalExcept reply (checkMultiLevelLimits config entitlement chain))
      (evalExcept reply (checkMultiLevelLimitsForCheck config entitlement chain denials)) := by
  induction chain generalizing denials with
  | nil => rfl
  | cons entry chain ih =>
    unfold checkMultiLevelLimits checkMultiLevelLimitsForCheck
    simp only [evalExcept_bind, evalExcept_await, evalExcept_withDenials]
    refine LimitsAgree.bind fun subscription => ?_
    cases subscription with
    | none => exact ih denials hfresh
    | some subscription =>
      cases hplan : present (resolveEffectivePlan (some subscription) config.accessDef.plans
          (config.accessDef.levelDefault entry.type) config.now) with
      | none => simpa only [hplan] using ih denials hfresh
      | some planId =>
        by_cases hlimits : (!planLimits config planId entitlement) = true
        · simpa only [hplan, if_pos hlimits] using ih denials hfresh
        · simp only [hplan, if_neg hlimits, evalExcept_bind, evalExcept_withDenials]
          refine LimitsAgree.bind fun overrides => LimitsAgree.bind fun walletStates => ?_
          have hreasons := reasons_checkSingleLevel walletStates denials
          cases hok : checkLimitStates walletStates with
          | true =>
            rw [hok, if_pos rfl] at hreasons
            have hnot : (checkSingleLevelLimitsForCheck walletStates denials).reasons.contains
                .limitReached = false := by
              rw [hreasons]
              simpa using hfresh
            simp only [hnot, if_true, Bool.false_eq_true, if_false]
            exact (ih _ (by rwa [hreasons])).congr hreasons
          | false =>
            rw [hok, if_neg (by simp)] at hreasons
            have hcontains :
                (checkSingleLevelLimitsForCheck walletStates denials).reasons.contains
                  .limitReached = true := by
              rw [hreasons]
              simp
            simp only [hcontains, if_true, Bool.false_eq_true, if_false]
            exact hreasons

theorem singleLevel_agree (org : ResourceRef) (overrides : Option TenantOverrides)
    (denials : Denials) :
    LimitsAgree denials
      (evalExcept reply (do
        let walletStates ← resolveAllLimitStates config entitlement org overrides none
        return checkLimitStates walletStates))
      (evalExcept reply (do
        let walletStates ← withDenials denials
          (resolveAllLimitStates config entitlement org overrides none)
        return checkSingleLevelLimitsForCheck walletStates denials)) := by
  simp only [evalExcept_bind, evalExcept_withDenials, evalExcept_pure]
  refine LimitsAgree.bind fun walletStates => ?_
  have hreasons := reasons_checkSingleLevel walletStates denials
  cases hok : checkLimitStates walletStates with
  | true => simpa [LimitsAgree, hok] using hreasons
  | false => simpa [LimitsAgree, hok] using hreasons

/-- Denials that there are stay, whether the levels throw or not. -/
def KeepsDenials : Except (StoreError × Denials) Denials → Prop
  | .ok denials => denials.reasons ≠ []
  | .error (_, denials) => denials.reasons ≠ []

theorem KeepsDenials.bind {α : Type} {denials : Denials} (hdenied : denials.reasons ≠ [])
    {r : Except StoreError α} {f : α → Except (StoreError × Denials) Denials}
    (h : ∀ a, KeepsDenials (f a)) : KeepsDenials (r.mapError (·, denials) >>= f) := by
  cases r with
  | error error => exact hdenied
  | ok a => exact h a

theorem checkSingleLevel_ne_nil {walletStates : List LimitState} {denials : Denials}
    (hdenied : denials.reasons ≠ []) :
    (checkSingleLevelLimitsForCheck walletStates denials).reasons ≠ [] := by
  rw [reasons_checkSingleLevel]
  split
  · exact hdenied
  · simp

theorem multiLevel_keeps (chain : List AncestorChainEntry) (denials : Denials)
    (hdenied : denials.reasons ≠ []) :
    KeepsDenials
      (evalExcept reply (checkMultiLevelLimitsForCheck config entitlement chain denials)) := by
  induction chain generalizing denials with
  | nil => exact hdenied
  | cons entry chain ih =>
    unfold checkMultiLevelLimitsForCheck
    simp only [evalExcept_bind, evalExcept_await, evalExcept_withDenials]
    refine KeepsDenials.bind hdenied fun subscription => ?_
    cases subscription with
    | none => exact ih denials hdenied
    | some subscription =>
      cases hplan : present (resolveEffectivePlan (some subscription) config.accessDef.plans
          (config.accessDef.levelDefault entry.type) config.now) with
      | none => simpa only [hplan] using ih denials hdenied
      | some planId =>
        by_cases hlimits : (!planLimits config planId entitlement) = true
        · simpa only [hplan, if_pos hlimits] using ih denials hdenied
        · simp only [hplan, if_neg hlimits, evalExcept_bind, evalExcept_withDenials]
          refine KeepsDenials.bind hdenied fun overrides =>
            KeepsDenials.bind hdenied fun walletStates => ?_
          split
          · exact checkSingleLevel_ne_nil hdenied
          · exact ih _ (checkSingleLevel_ne_nil hdenied)

theorem limitLayer_iff {denials : Denials} {body : StoreM Bool} {body' : CheckM Denials}
    (hagree : denials.reasons = [] →
      LimitsAgree denials (evalExcept reply body) (evalExcept reply body'))
    (hkeeps : denials.reasons ≠ [] → KeepsDenials (evalExcept reply body')) :
    Passes reply (do
        let result ← ExceptT.lift body'.run
        match result with
        | .ok denials => return denials
        | .error (error, denials) => onCloudErrorForCheck config error denials)
      ↔ denials.reasons = []
        ∧ evalExcept reply (tryCatch body (onCloudError config)) = .ok true := by
  rw [passes_bind_iff, evalExcept_lift, evalExcept_tryCatch]
  have hresult : ∀ result, Except.ok (Program.eval reply body'.run) = (Except.ok result :
      Except StoreError (Except (StoreError × Denials) Denials)) ↔
      evalExcept reply body' = result := fun result => by simp [evalExcept]
  simp only [hresult, exists_eq_left']
  by_cases hnil : denials.reasons = []
  · have hagree := hagree hnil
    cases hcheck : evalExcept reply body' with
    | ok denials' =>
      cases hcan : evalExcept reply body with
      | ok allowed =>
        rw [hcheck, hcan] at hagree
        cases allowed with
        | true =>
          have hreasons : denials'.reasons = denials.reasons := hagree
          simp [passes_pure_iff, hreasons, hnil]
        | false =>
          have hreasons : denials'.reasons = denials.reasons ++ [.limitReached] := hagree
          simp [passes_pure_iff, hreasons]
      | error error =>
        rw [hcheck, hcan] at hagree
        exact hagree.elim
    | error failed =>
      obtain ⟨error', denials'⟩ := failed
      cases hcan : evalExcept reply body with
      | ok allowed =>
        rw [hcheck, hcan] at hagree
        cases allowed <;> exact hagree.elim
      | error error =>
        rw [hcheck, hcan] at hagree
        obtain ⟨rfl, hreasons⟩ := hagree
        unfold onCloudErrorForCheck onCloudError
        cases config.cloudFailMode with
        | none => simp [Passes]
        | some mode => cases mode <;> simp [passes_pure_iff, hreasons, hnil]
  · have hkeeps := hkeeps hnil
    simp only [hnil, false_and, iff_false]
    cases hcheck : evalExcept reply body' with
    | ok denials' =>
      rw [hcheck] at hkeeps
      rw [passes_pure_iff]
      exact hkeeps
    | error failed =>
      obtain ⟨error, denials'⟩ := failed
      rw [hcheck] at hkeeps
      have hkeeps : denials'.reasons ≠ [] := hkeeps
      unfold onCloudErrorForCheck
      cases config.cloudFailMode with
      | none => simp [Passes]
      | some mode => cases mode <;> simp [passes_pure_iff, hkeeps]

theorem limits_passes_iff (resolvedOrg : Option ResourceRef) (overrides : Option TenantOverrides)
    (chain : Option (List AncestorChainEntry)) (denials : Denials) :
    Passes reply (checkLimitsForCheck config entitlement resolvedOrg overrides chain denials)
      ↔ denials.reasons = []
        ∧ evalExcept reply (checkLimits config entitlement resolvedOrg overrides chain)
          = .ok true := by
  unfold checkLimitsForCheck checkLimits
  split
  · refine limitLayer_iff (fun hnil => ?_) (fun hdenied => ?_)
    · cases chain with
      | some chain => exact multiLevel_agree entitlement chain denials (by simp [hnil])
      | none => exact singleLevel_agree entitlement _ overrides denials
    · cases chain with
      | some chain => exact multiLevel_keeps entitlement chain denials hdenied
      | none =>
        simp only [evalExcept_bind, evalExcept_withDenials]
        exact KeepsDenials.bind hdenied fun walletStates => checkSingleLevel_ne_nil hdenied
  · simp [passes_pure_iff]

/-! ### The decisions -/

/-- A check that ends the decision when it fails. -/
theorem evalExcept_guard_iff (p q : StoreM Bool) :
    evalExcept reply (do
        if !(← p) then return false
        q) = .ok true
      ↔ evalExcept reply p = .ok true ∧ evalExcept reply q = .ok true := by
  rw [evalExcept_bind]
  cases evalExcept reply p with
  | error error => simp [bind, Except.bind]
  | ok passed => cases passed <;> simp [bind, Except.bind]

theorem layers1to3_iff (resource resolvedOrg : Option ResourceRef)
    (overrides : Option TenantOverrides) (chain : Option (List AncestorChainEntry)) :
    evalExcept reply (checkLayers1to3 config entitlement resource resolvedOrg overrides chain)
        = .ok true
      ↔ ∃ userId entDef, present config.userId = some userId ∧
        config.accessDef.entitlements.get? entitlement = some entDef ∧
        evalExcept reply (checkFlags config entDef resolvedOrg chain) = .ok true ∧
        evalExcept reply (checkRoles config userId entDef entitlement resource) = .ok true ∧
        evalExcept reply (checkPlan config entitlement resolvedOrg overrides chain) = .ok true := by
  unfold checkLayers1to3
  cases present config.userId with
  | none => simp
  | some userId =>
    cases config.accessDef.entitlements.get? entitlement with
    | none => simp
    | some entDef =>
      have hguards := (@evalExcept_guard_iff reply
        (checkFlags config entDef resolvedOrg chain) _).trans (and_congr_right fun _ =>
          evalExcept_guard_iff (checkRoles config userId entDef entitlement resource)
            (checkPlan config entitlement resolvedOrg overrides chain))
      simpa using hguards

theorem canIsTrue_iff (resource : Option ResourceRef) :
    CanIsTrue reply config entitlement resource ↔ ∃ userId entDef resolvedOrg overrides chain,
        Resolves reply config entitlement resource userId entDef resolvedOrg overrides chain ∧
        evalExcept reply (checkFlags config entDef resolvedOrg chain) = .ok true ∧
        evalExcept reply (checkRoles config userId entDef entitlement resource) = .ok true ∧
        evalExcept reply (checkPlan config entitlement resolvedOrg overrides chain) = .ok true ∧
        evalExcept reply (checkLimits config entitlement resolvedOrg overrides chain)
          = .ok true := by
  have hbody : CanIsTrue reply config entitlement resource
      ↔ ∃ resolvedOrg, evalExcept reply (resolveOrg config resource) = .ok resolvedOrg ∧
        ∃ overrides, evalExcept reply (orgOverrides config resolvedOrg) = .ok overrides ∧
        ∃ chain, evalExcept reply (orgChain config resolvedOrg) = .ok chain ∧
        evalExcept reply (checkLayers1to3 config entitlement resource resolvedOrg overrides chain)
          = .ok true ∧
        evalExcept reply (checkLimits config entitlement resolvedOrg overrides chain)
          = .ok true := by
    unfold CanIsTrue can
    simp only [evalExcept_bind, bind_eq_ok_iff, ← evalExcept_guard_iff]
  rw [hbody]
  simp only [layers1to3_iff]
  constructor
  · intro h
    obtain ⟨org, horg, overrides, hov, chain, hchain, ⟨userId, entDef, huser, hent, hf, hr, hp⟩, hl⟩ := h
    exact ⟨userId, entDef, org, overrides, chain, ⟨huser, hent, horg, hov, hchain⟩, hf, hr, hp, hl⟩
  · intro h
    obtain ⟨userId, entDef, org, overrides, chain, ⟨huser, hent, horg, hov, hchain⟩, hf, hr, hp, hl⟩ := h
    exact ⟨org, horg, overrides, hov, chain, hchain, ⟨userId, entDef, huser, hent, hf, hr, hp⟩, hl⟩

theorem allowed_result_iff : denials.result.allowed = true ↔ denials.reasons = [] := by
  show (orderDenialReasons denials.reasons).isEmpty = true ↔ _
  rw [List.isEmpty_iff, ← List.length_eq_zero_iff, ← List.length_eq_zero_iff]
  unfold orderDenialReasons
  rw [List.length_insertionSort]

theorem passes_then_iff (layer : StoreM Denials) (next : Denials → StoreM Denials) {P Q : Prop}
    (hlayer : Passes reply layer ↔ P)
    (hnext : ∀ denials, Passes reply (next denials) ↔ denials.reasons = [] ∧ Q) :
    Passes reply (layer >>= next) ↔ P ∧ Q := by
  rw [passes_bind_iff, ← hlayer]
  simp only [hnext]
  constructor
  · intro h
    obtain ⟨denials, heval, hnil, hQ⟩ := h
    exact ⟨⟨denials, heval, hnil⟩, hQ⟩
  · intro h
    obtain ⟨⟨denials, heval, hnil⟩, hQ⟩ := h
    exact ⟨denials, heval, hnil, hQ⟩

theorem layers_pass_iff (userId : String) (entDef : EntitlementDef) (entitlement : String)
    (resource resolvedOrg : Option ResourceRef) (overrides : Option TenantOverrides)
    (chain : Option (List AncestorChainEntry)) :
    Passes reply (((checkFlagsForCheck config entDef resolvedOrg chain .empty
        >>= checkRolesForCheck config userId entDef entitlement resource)
        >>= checkPlanForCheck config entitlement resolvedOrg overrides chain)
        >>= checkLimitsForCheck config entitlement resolvedOrg overrides chain)
      ↔ ((evalExcept reply (checkFlags config entDef resolvedOrg chain) = .ok true ∧
          (evalExcept reply (checkRoles config userId entDef entitlement resource) = .ok true
            ∨ forcedRole reply config userId entDef entitlement resource)) ∧
          evalExcept reply (checkPlan config entitlement resolvedOrg overrides chain) = .ok true) ∧
        evalExcept reply (checkLimits config entitlement resolvedOrg overrides chain)
          = .ok true := by
  refine passes_then_iff _ _ (passes_then_iff _ _ (passes_then_iff _ _ ?_
    (roles_passes_iff userId entDef entitlement resource))
    (plan_passes_iff entitlement resolvedOrg overrides chain))
    (limits_passes_iff entitlement resolvedOrg overrides chain)
  rw [flags_passes_iff]
  exact and_iff_right rfl

theorem not_allowed_deniedFor {E : Type} (reason : DenialReason) :
    ¬ ∃ result, (.ok (deniedFor reason) : Except E AccessCheckResult) = .ok result ∧
      result.allowed = true := by
  rintro ⟨result, hresult, hallowed⟩
  cases hresult
  simp [deniedFor] at hallowed

theorem checkAllows_iff (resource : Option ResourceRef) :
    CheckAllows reply config entitlement resource ↔ ∃ userId entDef resolvedOrg overrides chain,
        Resolves reply config entitlement resource userId entDef resolvedOrg overrides chain ∧
        evalExcept reply (checkFlags config entDef resolvedOrg chain) = .ok true ∧
        (evalExcept reply (checkRoles config userId entDef entitlement resource) = .ok true
          ∨ forcedRole reply config userId entDef entitlement resource) ∧
        evalExcept reply (checkPlan config entitlement resolvedOrg overrides chain) = .ok true ∧
        evalExcept reply (checkLimits config entitlement resolvedOrg overrides chain)
          = .ok true := by
  unfold CheckAllows check
  cases huser : present config.userId with
  | none =>
    refine iff_of_false (not_allowed_deniedFor _) ?_
    rintro ⟨userId, entDef, org, overrides, chain, hres, -⟩
    have hnone := hres.user
    rw [huser] at hnone
    cases hnone
  | some userId =>
    cases hent : config.accessDef.entitlements.get? entitlement with
    | none =>
      refine iff_of_false (not_allowed_deniedFor _) ?_
      rintro ⟨userId, entDef, org, overrides, chain, hres, -⟩
      have hnone := hres.entitlement
      rw [hent] at hnone
      cases hnone
    | some entDef =>
      have hlayers := @layers_pass_iff reply config userId entDef entitlement resource
      unfold Passes at hlayers
      simp only [evalExcept_bind, bind_eq_ok_iff, evalExcept_pure] at hlayers ⊢
      constructor
      · intro h
        obtain ⟨result, ⟨org, horg, overrides, hov, chain, hchain, d₁, h₁, d₂, h₂, d₃, h₃, d₄,
          h₄, hresult⟩, hallowed⟩ := h
        cases hresult
        obtain ⟨⟨⟨hf, hr⟩, hp⟩, hl⟩ := (hlayers org overrides chain).mp
          ⟨d₄, ⟨d₃, ⟨d₂, ⟨d₁, h₁, h₂⟩, h₃⟩, h₄⟩, (allowed_result_iff d₄).mp hallowed⟩
        exact ⟨userId, entDef, org, overrides, chain, ⟨huser, hent, horg, hov, hchain⟩,
          hf, hr, hp, hl⟩
      · intro h
        obtain ⟨userId', entDef', org, overrides, chain, hres, hf, hr, hp, hl⟩ := h
        obtain rfl : userId = userId' := Option.some.inj (huser.symm.trans hres.user)
        obtain rfl : entDef = entDef' := Option.some.inj (hent.symm.trans hres.entitlement)
        obtain ⟨d₄, ⟨d₃, ⟨d₂, ⟨d₁, h₁, h₂⟩, h₃⟩, h₄⟩, hnil⟩ :=
          (hlayers org overrides chain).mpr ⟨⟨⟨hf, hr⟩, hp⟩, hl⟩
        exact ⟨d₄.result, ⟨org, hres.org, overrides, hres.overrides, chain, hres.chain,
          d₁, h₁, d₂, h₂, d₃, h₃, d₄, h₄, rfl⟩, (allowed_result_iff d₄).mpr hnil⟩

theorem resolves_unique {entitlement : String} {resource : Option ResourceRef}
    {userId userId' : String} {entDef entDef' : EntitlementDef}
    {resolvedOrg resolvedOrg' : Option ResourceRef} {overrides overrides' : Option TenantOverrides}
    {chain chain' : Option (List AncestorChainEntry)}
    (h : Resolves reply config entitlement resource userId entDef resolvedOrg overrides chain)
    (h' : Resolves reply config entitlement resource userId' entDef' resolvedOrg' overrides' chain') :
    userId' = userId ∧ entDef' = entDef := by
  exact ⟨Option.some.inj (h'.user.symm.trans h.user),
    Option.some.inj (h'.entitlement.symm.trans h.entitlement)⟩

theorem checkRoles_of_forced {userId : String} {entDef : EntitlementDef} {entitlement : String}
    {resource : Option ResourceRef} (h : forcedRole reply config userId entDef entitlement resource) :
    evalExcept reply (checkRoles config userId entDef entitlement resource) ≠ .ok true := by
  cases resource with
  | none => exact h.elim
  | some resource =>
    obtain ⟨htype, hmem, role, hrole, hinherited⟩ := h
    unfold checkRoles
    unfold repliedRole at hrole
    cases hlist : entDef.roles with
    | nil => simp [hlist] at hmem
    | cons first rest =>
      simp only [evalExcept_bind, evalExcept_await]
      cases hreply : reply (.getEffectiveRole userId resource.type resource.id) with
      | error error => simp [bind, Except.bind]
      | ok found =>
        rw [hreply] at hrole
        have hrole : present found = some role := hrole
        simp [bind, Except.bind, hrole, htype, hinherited]

/-- `can` is true exactly when `check` allows, if and only if no role is
forced where everything else allows. -/
theorem can_iff_check (reply : Replies) (config : AccessContextConfig) (entitlement : String)
    (resource : Option ResourceRef) :
    (CanIsTrue reply config entitlement resource ↔ CheckAllows reply config entitlement resource)
      ↔ ¬ OnlyForcedRole reply config entitlement resource := by
  rw [canIsTrue_iff, checkAllows_iff]
  constructor
  · intro hiff honly
    obtain ⟨userId, entDef, org, overrides, chain, hres, hf, hforced, hp, hl⟩ := honly
    obtain ⟨userId', entDef', org', overrides', chain', hres', -, hroles, -⟩ :=
      hiff.mpr ⟨userId, entDef, org, overrides, chain, hres, hf, .inr hforced, hp, hl⟩
    obtain ⟨rfl, rfl⟩ := resolves_unique hres hres'
    exact checkRoles_of_forced hforced hroles
  · intro hnot
    constructor
    · intro h
      obtain ⟨userId, entDef, org, overrides, chain, hres, hf, hr, hp, hl⟩ := h
      exact ⟨userId, entDef, org, overrides, chain, hres, hf, .inl hr, hp, hl⟩
    · intro h
      obtain ⟨userId, entDef, org, overrides, chain, hres, hf, hr | hforced, hp, hl⟩ := h
      · exact ⟨userId, entDef, org, overrides, chain, hres, hf, hr, hp, hl⟩
      · exact absurd ⟨userId, entDef, org, overrides, chain, hres, hf, hforced, hp, hl⟩ hnot

/-! ### A forced role -/

/-- Projects have the empty role, and organizations pass no role on. -/
def emptyRoleConfig : AccessContextConfig where
  userId := some "u1"
  accessDef :=
    { hierarchy := ["organization", "project"]
      inheritance := .empty
      entitlements := .ofList [("project:view", ⟨[""], none, none⟩)]
      plans := none
      defaultPlan := none
      defaultPlans := none
      planGatedEntitlements := []
      entitlementToLimitKeys := .empty }
  flagStore := false
  subscriptionStore := false
  walletStore := false
  overrideStore := false
  orgResolver := false
  planVersionStore := false
  cloudFailMode := none
  tenantLevel := none
  ancestorResolver := false
  now := 0

/-- Stores in which the user is the owner of whatever is asked for. -/
def ownerReplies : Replies := fun op =>
  match op with
  | .getEffectiveRole _ _ _ => .ok (some "owner")
  | _ => .error ⟨"unexpected"⟩

theorem can_ne_check :
    ¬ (CanIsTrue ownerReplies emptyRoleConfig "project:view" (some ⟨"organization", "o1"⟩)
      ↔ CheckAllows ownerReplies emptyRoleConfig "project:view" (some ⟨"organization", "o1"⟩)) := by
  intro h
  have hcheck : evalExcept ownerReplies (check emptyRoleConfig "project:view"
      (some ⟨"organization", "o1"⟩)) = .ok ⟨true, [], none, none⟩ := by decide
  have hcan : evalExcept ownerReplies (can emptyRoleConfig "project:view"
      (some ⟨"organization", "o1"⟩)) = .ok true := h.mpr ⟨_, hcheck, rfl⟩
  exact absurd hcan (by decide)

end Vertz.Proofs
