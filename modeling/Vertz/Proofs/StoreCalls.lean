import Vertz.Lib.Contract
import Vertz.Spec.WalletRuns

/-!
# `Vertz.Proofs.StoreCalls`: which stores a computation calls

Everything an access context does before it consumes only asks the
stores that are not the wallet store, and `can` asks the wallet store
for consumptions alone.
-/

namespace Vertz.Proofs

open Vertz.Lib
open Vertz.Server.Auth
open Vertz.Spec

variable {α β : Type}

/-- Every store call of the computation has the property, and the
computation fails exactly when one of them does. -/
def Straight (P : stores.Op → Prop) : Program stores (Except StoreError α) → Prop
  | .done result => ∃ value, result = .ok value
  | .call op next => P op ∧ (∀ error, next (.error error) = .done (.error error)) ∧
      ∀ value, Straight P (next (.ok value))

/-- A computation that makes straight calls. -/
abbrev CallsOnly (P : stores.Op → Prop) (p : StoreM α) : Prop := Straight P p.run

variable {P Q : stores.Op → Prop}

theorem CallsOnly.pure (value : α) : CallsOnly P (pure value : StoreM α) := ⟨value, rfl⟩

theorem CallsOnly.await {op : StoreOp} (h : P op) : CallsOnly P (await op) :=
  ⟨h, fun _ => rfl, fun value => ⟨value, rfl⟩⟩

theorem CallsOnly.bind {p : StoreM α} {f : α → StoreM β} (hp : CallsOnly P p)
    (hf : ∀ a, CallsOnly P (f a)) : CallsOnly P (p >>= f) := by
  have hbind : ∀ p : Program stores (Except StoreError α), Straight P p →
      Straight P (p >>= fun r => ExceptT.bindCont f r) := by
    intro p hp
    induction p with
    | done result =>
      obtain ⟨a, rfl⟩ := hp
      exact hf a
    | call op next ih =>
      refine ⟨hp.1, fun error => ?_, fun value => ih (.ok value) (hp.2.2 value)⟩
      show (next (.error error) >>= fun r => ExceptT.bindCont f r) = _
      rw [hp.2.1 error]
      rfl
  exact hbind p.run hp

theorem CallsOnly.ite {b : Prop} [Decidable b] {p q : StoreM α} (hp : CallsOnly P p)
    (hq : CallsOnly P q) : CallsOnly P (if b then p else q) := by
  by_cases h : b
  · rw [if_pos h]
    exact hp
  · rw [if_neg h]
    exact hq

theorem CallsOnly.mono (hPQ : ∀ op, P op → Q op) {p : StoreM α} (h : CallsOnly P p) :
    CallsOnly Q p := by
  have hmono : ∀ p : Program stores (Except StoreError α), Straight P p → Straight Q p := by
    intro p hp
    induction p with
    | done result => exact hp
    | call op next ih =>
      exact ⟨hPQ op hp.1, hp.2.1, fun value => ih (.ok value) (hp.2.2 value)⟩
  exact hmono p.run h

theorem CallsOnly.calls {p : StoreM α} (h : CallsOnly P p) : CallsExcept P p := by
  have hcalls : ∀ p : Program stores (Except StoreError α), Straight P p → p.Calls P := by
    intro p hp
    induction p with
    | done result => trivial
    | call op next ih =>
      refine ⟨hp.1, fun result => ?_⟩
      cases result with
      | error error => rw [hp.2.1 error]; trivial
      | ok value => exact ih (.ok value) (hp.2.2 value)
  exact hcalls p.run h

/-- With stores that do not fail the computation has a result. -/
theorem CallsOnly.eval_ok {reply : Replies} {p : StoreM α} (h : CallsOnly P p)
    (hreply : ∀ op, P op → ∃ value, reply op = .ok value) :
    ∃ value, evalExcept reply p = .ok value := by
  have heval : ∀ p : Program stores (Except StoreError α), Straight P p →
      ∃ value, p.eval reply = .ok value := by
    intro p hp
    induction p with
    | done result => exact hp
    | call op next ih =>
      obtain ⟨value, hvalue⟩ := hreply op hp.1
      show ∃ v, (next (reply op)).eval reply = .ok v
      rw [hvalue]
      exact ih (.ok value) (hp.2.2 value)
  exact heval p.run h

/-- The computation makes no call to the wallet store. -/
abbrev ConfigOnly (p : StoreM α) : Prop := CallsOnly (fun op => isConfigCall op = true) p

variable (config : AccessContextConfig)

theorem await_calls {op : StoreOp} (h : isConfigCall op = true) : ConfigOnly (await op) :=
  .await h

theorem overridesOf_calls (type id : String) : ConfigOnly (overridesOf config type id) :=
  .ite (await_calls rfl) (.pure _)

theorem resolveOrg_calls (resource : Option ResourceRef) :
    ConfigOnly (resolveOrg config resource) :=
  .ite (await_calls rfl) (.pure _)

theorem orgOverrides_calls (org : Option ResourceRef) : ConfigOnly (orgOverrides config org) := by
  cases org with
  | none => exact .pure _
  | some org => exact overridesOf_calls config org.type org.id

theorem orgChain_calls (org : Option ResourceRef) : ConfigOnly (orgChain config org) := by
  cases org with
  | none => exact .pure _
  | some org =>
    show ConfigOnly (resolveAncestorChain config org)
    unfold resolveAncestorChain
    split
    · exact .bind (await_calls rfl) fun _ => .pure _
    · exact .pure _

variable (org : ResourceRef)

theorem versionSnapshot_calls (planId : String) :
    ConfigOnly (versionSnapshot config org planId) := by
  unfold versionSnapshot
  split
  · refine .bind (await_calls rfl) fun version => ?_
    cases version with
    | none => exact .pure _
    | some version => exact await_calls rfl
  · exact .pure _

theorem addOnsInclude_calls (entitlement : String) :
    ConfigOnly (addOnsInclude config org entitlement) := by
  refine .bind (await_calls rfl) fun addOns => ?_
  cases addOns <;> exact .pure _

/-! ### Layers 1 to 3 -/

theorem allM_calls {enabled : String → StoreM Bool} (h : ∀ flag, ConfigOnly (enabled flag))
    (flags : List String) : ConfigOnly (flags.allM enabled) := by
  induction flags with
  | nil => exact .pure _
  | cons flag flags ih =>
    refine .bind (h flag) fun on => ?_
    cases on with
    | false => exact .pure _
    | true => exact ih

theorem resolveMultiLevelFlag_calls (flag : String) (chain : List AncestorChainEntry) :
    ConfigOnly (resolveMultiLevelFlag flag chain) := by
  induction chain with
  | nil => exact .pure _
  | cons entry chain ih =>
    refine .bind (await_calls rfl) fun levelFlags => ?_
    split
    · exact .pure _
    · exact ih

theorem checkFlags_calls (entDef : EntitlementDef) (org : Option ResourceRef)
    (chain : Option (List AncestorChainEntry)) :
    ConfigOnly (checkFlags config entDef org chain) := by
  unfold checkFlags
  split
  · split
    · exact .pure _
    · exact allM_calls (fun flag => resolveMultiLevelFlag_calls flag _) _
    · exact allM_calls (fun flag => await_calls rfl) _
  · exact .pure _

theorem checkRoles_calls (userId : String) (entDef : EntitlementDef) (entitlement : String)
    (resource : Option ResourceRef) :
    ConfigOnly (checkRoles config userId entDef entitlement resource) := by
  unfold checkRoles
  split
  · exact .pure _
  · exact .pure _
  · refine .bind (await_calls rfl) fun role => ?_
    split
    · exact .pure _
    · split
      · split <;> exact .pure _
      · exact .pure _

theorem resolveEffectiveFeatures_calls (entitlement planId : String)
    (overrides : Option TenantOverrides) :
    ConfigOnly (resolveEffectiveFeatures config org entitlement planId overrides) := by
  refine .bind (versionSnapshot_calls config org planId) fun snapshot => ?_
  cases snapshot <;>
  · refine .bind (.pure _) fun planFeatures => .ite (.pure _) ?_
    refine .bind (addOnsInclude_calls config org entitlement) fun included => ?_
    exact .ite (.pure _) (.pure _)

variable (entitlement : String)

theorem resolveMultiLevelFeature_calls (chain : List AncestorChainEntry) :
    ConfigOnly (resolveMultiLevelFeature config entitlement chain) := by
  induction chain with
  | nil => exact .pure _
  | cons entry chain ih =>
    unfold resolveMultiLevelFeature
    dsimp only
    split
    · exact ih
    · refine .bind (await_calls rfl) fun subscription => ?_
      split
      · exact ih
      · refine .bind (overridesOf_calls config _ _) fun overrides => ?_
        refine .bind (resolveEffectiveFeatures_calls config _ _ _ _) fun has => ?_
        split
        · exact .pure _
        · exact ih

theorem checkPlan_calls (org : Option ResourceRef) (overrides : Option TenantOverrides)
    (chain : Option (List AncestorChainEntry)) :
    ConfigOnly (checkPlan config entitlement org overrides chain) := by
  unfold checkPlan
  split
  · split
    · exact .pure _
    · exact resolveMultiLevelFeature_calls config entitlement _
    · refine .bind (await_calls rfl) fun subscription => ?_
      split
      · exact .pure _
      · exact resolveEffectiveFeatures_calls config _ _ _ _
  · exact .pure _

theorem checkLayers1to3_calls (resource org : Option ResourceRef)
    (overrides : Option TenantOverrides) (chain : Option (List AncestorChainEntry)) :
    ConfigOnly (checkLayers1to3 config entitlement resource org overrides chain) := by
  unfold checkLayers1to3
  split
  · refine .bind (checkFlags_calls config _ _ _) fun flags => ?_
    split
    · exact .pure _
    · refine .bind (checkRoles_calls config _ _ _ _) fun roles => ?_
      split
      · exact .pure _
      · exact checkPlan_calls config _ _ _ _
  · exact .pure _

/-! ### Limits -/

theorem computeEffectiveLimit_calls (basePlanMax : ℚ) (limitKey : String) (org : ResourceRef)
    (subscription : Subscription) (overrides : Option TenantOverrides) :
    ConfigOnly (computeEffectiveLimit config basePlanMax limitKey org subscription overrides) :=
  .bind (await_calls rfl) fun _ => .pure _

theorem limitConsumptions_calls (subscription : Subscription) (planId : String)
    (snapshot : Option PlanSnapshot) (overrides : Option TenantOverrides)
    (limitKeys : List String) :
    ConfigOnly (limitConsumptions config org subscription planId snapshot overrides limitKeys) := by
  induction limitKeys with
  | nil => exact .pure _
  | cons limitKey limitKeys ih =>
    unfold limitConsumptions
    split
    · exact ih
    · refine .bind (computeEffectiveLimit_calls config _ _ _ _ _) fun effectiveMax => ?_
      exact .bind ih fun _ => .pure _

theorem resolveAllLimitConsumptions_calls (entitlement planId : String)
    (subscription : Subscription) (overrides : Option TenantOverrides) :
    ConfigOnly (resolveAllLimitConsumptions config org entitlement planId subscription
      overrides) := by
  unfold resolveAllLimitConsumptions
  split
  · exact .pure _
  · refine .bind (versionSnapshot_calls config org planId) fun snapshot => ?_
    exact limitConsumptions_calls config _ _ _ _ _ _

theorem resolveChainEntry_calls (org : ResourceRef) :
    ConfigOnly (resolveChainEntry config entitlement org) := by
  refine .bind (await_calls rfl) fun subscription => ?_
  split
  · exact .pure _
  · dsimp only
    split
    · exact .pure _
    · split
      · exact .pure _
      · exact .bind (overridesOf_calls config _ _) fun _ => .pure _

theorem resolveChainEntries_calls (orgs : List ResourceRef) :
    ConfigOnly (resolveChainEntries config entitlement orgs) := by
  induction orgs with
  | nil => exact .pure _
  | cons org orgs ih =>
    refine .bind (resolveChainEntry_calls config entitlement org) fun entry => ?_
    exact .bind ih fun _ => .pure _

theorem buildConsumptionChain_calls (entitlement : String) :
    ConfigOnly (buildConsumptionChain config org entitlement) := by
  unfold buildConsumptionChain
  split
  · exact .pure _
  · split
    · refine .bind (await_calls rfl) fun ancestors => ?_
      exact resolveChainEntries_calls config entitlement _
    · refine .bind (.pure _) fun ancestors => ?_
      exact resolveChainEntries_calls config entitlement _

end Vertz.Proofs
