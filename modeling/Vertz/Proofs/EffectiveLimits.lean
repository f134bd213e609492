import Mathlib.Tactic.Linarith
import Vertz.Proofs.Limits

/-!
# `Vertz.Proofs.EffectiveLimits`: how a limit follows what it is made of

An effective limit is the plan's, with what the add-ons allow, raised by
an override of the subscription and changed by one of the override store.
In all of these -1 is unlimited, so limits are compared by `Within`.

The code computes with -1 as with any other number. `LimitRaise.Loses`
says which raises it answers with a lower limit, and
`LimitInputs.FallsShort` where it ends below the plan.
`effectiveLimit_follows` proves both exact, and that the access set finds
the same limit. `unlimited_plan_capped` is a plan that becomes unlimited
and allows less than before.
-/

namespace Vertz.Proofs

open Vertz.Lib
open Vertz.Server.Auth
open Vertz.Spec

/-! ### Limits and what they are made of -/

/-- The limit `a` allows no more than `b`; -1 is unlimited. -/
def Within (a b : ℚ) : Prop := b = -1 ∨ (a ≠ -1 ∧ a ≤ b)

instance (a b : ℚ) : Decidable (Within a b) := inferInstanceAs (Decidable (_ ∨ _))

theorem Within.refl (a : ℚ) : Within a a := by
  by_cases h : a = -1
  · exact .inl h
  · exact .inr ⟨h, le_refl a⟩

/-- A limit that a definition of access accepts: unlimited, or a number. -/
def ValidMax (m : ℚ) : Prop := m = -1 ∨ ∃ n : ℕ, m = n

/-- What an effective limit is computed from. -/
structure LimitInputs where
  planMax : ℚ
  /-- The maxes of the add-ons that have the limit. -/
  addOns : List ℚ
  /-- The override of the subscription. -/
  legacy : Option ℚ
  /-- The override of the override store. -/
  override : Option LimitOverrideDef

namespace LimitInputs

structure Valid (I : LimitInputs) : Prop where
  planMax : ValidMax I.planMax
  addOns : ∀ m ∈ I.addOns, ValidMax m

def total (I : LimitInputs) : ℚ := I.planMax + I.addOns.sum

def additive (I : LimitInputs) : Option ℚ := I.override.bind LimitOverrideDef.add

def cap (I : LimitInputs) : Option ℚ := I.override.bind LimitOverrideDef.max

/-- The number in the subscription; without one it is as if it were -1. -/
def floor (I : LimitInputs) : ℚ := I.legacy.getD (-1)

end LimitInputs

/-- Adding one max after the other to a total comes to -1. -/
def RunsOut : ℚ → List ℚ → Prop
  | total, [] => total = -1
  | total, m :: maxes => total = -1 ∨ RunsOut (total + m) maxes

instance decidableRunsOut : ∀ (total : ℚ) (maxes : List ℚ), Decidable (RunsOut total maxes)
  | total, [] => inferInstanceAs (Decidable (total = -1))
  | total, m :: maxes =>
    have := decidableRunsOut (total + m) maxes
    inferInstanceAs (Decidable (total = -1 ∨ RunsOut (total + m) maxes))

/-- The plan, with its add-ons, is read as unlimited. -/
abbrev LimitInputs.Unlimited (I : LimitInputs) : Prop := RunsOut I.planMax I.addOns

/-- The maxes that the add-ons of a tenant define under a limit key. -/
def addOnMaxes (accessDef : AccessDefinition) (limitKey : String) (addOns : List String) : List ℚ :=
  addOns.filterMap fun addOnId =>
    ((accessDef.plan? addOnId).bind (·.limit? limitKey)).map LimitDef.max

/-- A call of `computeEffectiveLimit`, with the answer of the subscription
store. -/
structure LimitCall where
  config : AccessContextConfig
  basePlanMax : ℚ
  limitKey : String
  org : ResourceRef
  subscription : Subscription
  overrides : Option TenantOverrides
  addOns : Option (List String)
  reply : Replies
  answered : reply (.getAddOns org.type org.id) = .ok addOns

namespace LimitCall

def inputs (call : LimitCall) : LimitInputs where
  planMax := call.basePlanMax
  addOns := addOnMaxes call.config.accessDef call.limitKey (call.addOns.getD [])
  legacy := call.subscription.overrides.get? call.limitKey
  override := (call.overrides.bind TenantOverrides.limits).bind (·.get? call.limitKey)

def run (call : LimitCall) : Except StoreError ℚ :=
  evalExcept call.reply (computeEffectiveLimit call.config call.basePlanMax call.limitKey call.org
    call.subscription call.overrides)

end LimitCall

/-! ### Raises -/

/-- One of the inputs is raised: the maxes of the plan and its add-ons,
what the override store adds, or the override of the subscription. -/
inductive LimitRaise where
  | maxes (planMax : ℚ) (addOns : List ℚ)
  | additive (add : ℚ)
  | legacy (max : ℚ)

namespace LimitRaise

def apply (I : LimitInputs) : LimitRaise → LimitInputs
  | .maxes planMax addOns => { I with planMax := planMax, addOns := addOns }
  | .additive add => { I with override := I.override.map fun o => { o with add := some add } }
  | .legacy max => { I with legacy := some max }

def Raises (I : LimitInputs) : LimitRaise → Prop
  | .maxes planMax addOns => Within I.planMax planMax ∧ List.Forall₂ Within I.addOns addOns
  | .additive add => ∃ before, I.additive = some before ∧ before ≤ add
  | .legacy max => ∃ before, I.legacy = some before ∧ Within before max

end LimitRaise

/-- What the override store adds does not take all of the limit away. -/
def Shows (I : LimitInputs) (limit : ℚ) : Prop := ∀ add, I.additive = some add → 0 < limit + add

/-- The raises that lower the limit.

- `maxes`: what was unlimited, since an unlimited add-on counted down to
  -1, no longer is, and no number stands in the subscription; or the sum
  of the maxes, which is above the subscription's number, falls, as it
  does when an add-on becomes unlimited, or becomes unlimited and is
  capped by that number;
- `legacy`: a number above the sum becomes unlimited, which counts as -1;
  or one below -1, under an unlimited plan, becomes one above. -/
def LimitRaise.Loses (I : LimitInputs) : LimitRaise → Prop
  | .maxes planMax addOns =>
    (I.Unlimited ∧ ¬ RunsOut planMax addOns ∧ I.floor ≤ -1) ∨
    (¬ I.Unlimited ∧ (RunsOut planMax addOns → -1 < I.floor) ∧
      (¬ RunsOut planMax addOns → planMax + addOns.sum < I.total) ∧
      I.floor < I.total ∧ Shows I I.total)
  | .additive _ => False
  | .legacy max =>
    (¬ I.Unlimited ∧ max = -1 ∧ I.total < I.floor ∧ Shows I I.floor) ∨
    (I.Unlimited ∧ I.floor < -1 ∧ -1 < max)

/-- A limit that may not be below the plan's is: an unlimited plan is
capped by the subscription, or the plan's max is neither reached by the
sum, when an unlimited add-on was counted as a number, nor by the
subscription. -/
def LimitInputs.FallsShort (I : LimitInputs) : Prop :=
  I.cap = none ∧ (∀ add, I.additive = some add → 0 ≤ add) ∧
    ((I.planMax = -1 ∧ -1 < I.floor) ∨
      (I.planMax ≠ -1 ∧ I.Unlimited ∧ -1 < I.floor ∧
        I.floor + I.additive.getD 0 < I.planMax ∧ (I.additive = none ∨ 0 < I.planMax)) ∨
      (¬ I.Unlimited ∧ I.total + I.additive.getD 0 < I.planMax ∧
        I.floor + I.additive.getD 0 < I.planMax))

/-! ### What the code computes -/

/-- The limit of the plan and its add-ons. -/
def LimitInputs.base (I : LimitInputs) : ℚ := if I.Unlimited then -1 else I.total

/-- Raised by the override of the subscription. -/
def LimitInputs.raised (I : LimitInputs) : ℚ :=
  match I.legacy with
  | some o => max I.base o
  | none => I.base

/-- Changed by what the override store adds. -/
def added (additive : Option ℚ) (limit : ℚ) : ℚ :=
  match additive with
  | some add => if limit = -1 then limit else max 0 (limit + add)
  | none => limit

def LimitInputs.effective (I : LimitInputs) : ℚ :=
  match I.cap with
  | some hardCap => hardCap
  | none => added I.additive I.raised

theorem addAddOns_eq (accessDef : AccessDefinition) (limitKey : String) (addOns : List String)
    (planMax : ℚ) :
    addAddOns accessDef limitKey addOns planMax =
      if RunsOut planMax (addOnMaxes accessDef limitKey addOns) then -1
      else planMax + (addOnMaxes accessDef limitKey addOns).sum := by
  induction addOns generalizing planMax with
  | nil =>
    show planMax = if planMax = -1 then -1 else planMax + 0
    split
    · assumption
    · exact (add_zero planMax).symm
  | cons addOnId addOns ih =>
    rw [addAddOns, addOnMaxes, List.filterMap_cons]
    cases hlimit : (accessDef.plan? addOnId).bind (·.limit? limitKey) with
    | none => exact ih planMax
    | some limit =>
      show (if planMax = -1 then planMax else addAddOns accessDef limitKey addOns _) =
        if planMax = -1 ∨ RunsOut (planMax + limit.max) (addOnMaxes accessDef limitKey addOns)
        then -1 else planMax + (limit.max :: addOnMaxes accessDef limitKey addOns).sum
      by_cases hunlimited : planMax = -1
      · rw [if_pos hunlimited, if_pos (.inl hunlimited), hunlimited]
      · rw [if_neg hunlimited, ih, List.sum_cons, add_assoc]
        simp only [hunlimited, false_or]

theorem run_eq (call : LimitCall) : call.run = .ok call.inputs.effective := by
  have hrun : call.run = .ok (applyLimitOverrides call.limitKey call.subscription call.overrides
      (addAddOns call.config.accessDef call.limitKey (call.addOns.getD []) call.basePlanMax)) := by
    rw [LimitCall.run, computeEffectiveLimit, evalExcept_bind, evalExcept_await, call.answered]
    rfl
  rw [hrun, addAddOns_eq]
  unfold applyLimitOverrides LimitInputs.effective LimitInputs.raised LimitInputs.base
    LimitInputs.cap LimitInputs.additive LimitInputs.total LimitCall.inputs
  cases call.subscription.overrides.get? call.limitKey <;>
    cases (call.overrides.bind TenantOverrides.limits).bind (·.get? call.limitKey) with
    | none => rfl
    | some o => obtain ⟨_ | _, _ | _⟩ := o <;> rfl

theorem runsOut_of_start {planMax : ℚ} {addOns : List ℚ} (h : planMax = -1) :
    RunsOut planMax addOns := by
  cases addOns with
  | nil => exact h
  | cons m addOns => exact .inl h

/-- A sum of valid maxes that never comes to -1 is a number. -/
theorem total_nonneg {planMax : ℚ} {addOns : List ℚ} (hplan : ValidMax planMax)
    (haddOns : ∀ m ∈ addOns, ValidMax m) (h : ¬ RunsOut planMax addOns) :
    0 ≤ planMax + addOns.sum := by
  induction addOns generalizing planMax with
  | nil =>
    obtain hplan | ⟨n, rfl⟩ := hplan
    · exact absurd hplan h
    · simp
  | cons m addOns ih =>
    obtain ⟨hne, hrest⟩ := not_or.mp h
    obtain ⟨n, rfl⟩ := hplan.resolve_left hne
    rw [List.sum_cons, ← add_assoc]
    refine ih ?_ (fun m hm => haddOns m (List.mem_cons_of_mem _ hm)) hrest
    obtain rfl | ⟨k, rfl⟩ := haddOns m List.mem_cons_self
    -- counting one down from a number leaves a number or -1
    · cases n with
      | zero => exact .inl (by norm_num)
      | succ n => exact .inr ⟨n, by push_cast; linarith⟩
    · exact .inr ⟨n + k, by push_cast; rfl⟩

section Follows

variable {I : LimitInputs}

theorem LimitInputs.Valid.base_cases (h : I.Valid) :
    (I.Unlimited ∧ I.base = -1) ∨ (¬ I.Unlimited ∧ I.base = I.total ∧ 0 ≤ I.total) := by
  by_cases hunlimited : I.Unlimited
  · exact .inl ⟨hunlimited, if_pos hunlimited⟩
  · exact .inr ⟨hunlimited, if_neg hunlimited, total_nonneg h.planMax h.addOns hunlimited⟩

/-- The override store keeps an order of limits, unless it takes both
away. -/
theorem within_effective {J : LimitInputs} (hcap : I.cap = none) (hJ : J.override = I.override) :
    Within I.effective J.effective ↔
      J.raised = -1 ∨ (I.raised ≠ -1 ∧ (I.raised ≤ J.raised ∨ ¬ Shows I I.raised)) := by
  have hcapJ : J.cap = none := by rwa [LimitInputs.cap, hJ]
  have hadd : J.additive = I.additive := by rw [LimitInputs.additive, hJ]; rfl
  have hpos : ∀ x : ℚ, max 0 x ≠ -1 := by
    intro x hx
    have := le_max_left 0 x
    linarith
  unfold Within LimitInputs.effective Shows
  rw [hcap, hcapJ, hadd]
  generalize I.raised = r
  generalize J.raised = r'
  cases I.additive with
  | none => simp [added]
  | some add =>
    simp only [added, Option.some.injEq, forall_eq', not_lt]
    by_cases hr' : r' = -1
    · simp [hr']
    · by_cases hr : r = -1
      · simp [hr, hr', hpos]
      · have hclamp : max 0 (r + add) ≤ max 0 (r' + add) ↔ r ≤ r' ∨ r + add ≤ 0 := by
          rw [max_le_iff, and_iff_right (le_max_left _ _), le_max_iff, add_le_add_iff_right,
            or_comm]
        rw [if_neg hr', if_neg hr, hclamp]
        simp only [hpos, hr, hr', false_or, ne_eq, not_false_eq_true, true_and]

theorem LimitInputs.Valid.raised_eq (h : I.Valid) : I.raised = max I.base I.floor := by
  unfold LimitInputs.raised LimitInputs.floor
  cases I.legacy with
  | none =>
    show I.base = max I.base (-1)
    rcases h.base_cases with ⟨_, hbase⟩ | ⟨_, hbase, hpos⟩
    · rw [hbase, max_self]
    · rw [hbase, max_eq_left (by linarith)]
  | some o => rfl

/-- A raise of the maxes lowers the limit in the cases that `Loses` names. -/
theorem within_maxes (hI : I.Valid) {planMax : ℚ} {addOns : List ℚ}
    (hJ : (LimitRaise.apply I (.maxes planMax addOns)).Valid) (hcap : I.cap = none) :
    Within I.effective (LimitRaise.apply I (.maxes planMax addOns)).effective ↔
      ¬ LimitRaise.Loses I (.maxes planMax addOns) := by
  rw [within_effective (J := LimitRaise.apply I _) hcap rfl, hI.raised_eq, hJ.raised_eq]
  have hfloor : (LimitRaise.apply I (.maxes planMax addOns)).floor = I.floor := rfl
  have hbase := hI.base_cases
  have hbase' : (RunsOut planMax addOns ∧ _) ∨ (¬ RunsOut planMax addOns ∧
    _ = planMax + addOns.sum ∧ 0 ≤ planMax + addOns.sum) := hJ.base_cases
  rw [hfloor]
  unfold LimitRaise.Loses
  generalize (LimitRaise.apply I (.maxes planMax addOns)).base = b' at hbase' ⊢
  generalize I.base = b at hbase ⊢
  generalize I.floor = f
  rcases hbase with ⟨hu, rfl⟩ | ⟨hu, rfl, hpos⟩ <;>
    rcases hbase' with ⟨hu', rfl⟩ | ⟨hu', rfl, hpos'⟩
  · simp [hu, hu', le_or_gt]
  · simp only [hu, hu', not_true, not_false_eq_true, true_and, false_and, or_false]
    rcases le_or_gt f (-1) with hf | hf
    · have hnumber : max (planMax + addOns.sum) f ≠ -1 := by
        rw [max_eq_left (by linarith)]
        linarith
      simp [hf, hnumber]
    · have hne : f ≠ -1 := by linarith
      simp [max_eq_right hf.le, hf, hne]
  · simp only [hu, hu', not_true, not_false_eq_true, true_and, false_and, false_or, forall_true_left,
      IsEmpty.forall_iff]
    rcases le_or_gt f (-1) with hf | hf
    · simp [hf]
    · have hne : f ≠ -1 := by linarith
      have hne' : I.total ≠ -1 := by linarith
      rw [max_eq_right hf.le]
      rcases le_or_gt I.total f with hle | hlt
      · simp [hne, hle]
      · simp [max_eq_left hlt.le, hne, hne', hlt, hf]
  · simp only [hu, hu', not_false_eq_true, true_and, false_and, false_or, forall_true_left,
      IsEmpty.forall_iff]
    have hnumber : max (planMax + addOns.sum) f ≠ -1 := by
      have := le_max_left (planMax + addOns.sum) f
      linarith
    have hnumber' : max I.total f ≠ -1 := by
      have := le_max_left I.total f
      linarith
    simp only [hnumber, hnumber', ne_eq, not_false_eq_true, true_and, false_or]
    rcases le_or_gt I.total f with hle | hlt
    · simp [hle]
    · simp only [max_eq_left hlt.le, le_max_iff, hlt, not_le.mpr hlt, or_false, true_and,
        not_and_or, not_lt]

/-- So does a raise of the subscription's number. -/
theorem within_legacy (hI : I.Valid) {o : ℚ} (hraise : LimitRaise.Raises I (.legacy o))
    (hcap : I.cap = none) :
    Within I.effective (LimitRaise.apply I (.legacy o)).effective ↔
      ¬ LimitRaise.Loses I (.legacy o) := by
  have hJ : (LimitRaise.apply I (.legacy o)).Valid := ⟨hI.planMax, hI.addOns⟩
  rw [within_effective (J := LimitRaise.apply I _) hcap rfl, hI.raised_eq, hJ.raised_eq]
  have hfloor : (LimitRaise.apply I (.legacy o)).floor = o := rfl
  have hbase : (LimitRaise.apply I (.legacy o)).base = I.base := rfl
  have hwithin : Within I.floor o := by
    obtain ⟨before, hbefore, hwithin⟩ := hraise
    rwa [LimitInputs.floor, hbefore]
  rw [hfloor, hbase]
  unfold LimitRaise.Loses
  have hcases := hI.base_cases
  generalize I.base = b at hcases ⊢
  generalize I.floor = f at hwithin ⊢
  rcases hcases with ⟨hu, rfl⟩ | ⟨hu, rfl, hpos⟩
  · simp only [hu, not_true, false_and, false_or, true_and]
    rcases le_or_gt o (-1) with ho | ho
    · simp [ho, not_lt.mpr ho]
    · have hne : o ≠ -1 := by linarith
      obtain ⟨hfne, hfo⟩ := hwithin.resolve_left hne
      rcases lt_or_gt_of_ne hfne with hf | hf
      · simp [max_eq_left hf.le, max_eq_right ho.le, hne, hf, ho]
      · simp [max_eq_right ho.le, hfne, hfo, hf.le]
  · simp only [hu, not_false_eq_true, false_and, or_false, true_and]
    have hnumber : ∀ x, max I.total x ≠ -1 := by
      intro x
      have := le_max_left I.total x
      linarith
    simp only [hnumber, ne_eq, not_false_eq_true, true_and, false_or]
    rcases hwithin with rfl | ⟨hfne, hfo⟩
    · rw [max_eq_left (by linarith : (-1 : ℚ) ≤ I.total)]
      rcases le_or_gt f I.total with hle | hlt
      · simp [hle]
      · simp [max_eq_right hlt.le, not_le.mpr hlt, hlt]
    · have hbelow : ¬ (o = -1 ∧ I.total < f ∧ Shows I f) := by
        rintro ⟨rfl, hlt, _⟩
        linarith
      exact iff_of_true (.inl (max_le_max_left I.total hfo)) hbelow

/-- A raise of what the override store adds never lowers the limit. -/
theorem within_additive {add : ℚ} (hraise : LimitRaise.Raises I (.additive add))
    (hcap : I.cap = none) :
    Within I.effective (LimitRaise.apply I (.additive add)).effective := by
  obtain ⟨before, hbefore, hle⟩ := hraise
  have hcapJ : (LimitRaise.apply I (.additive add)).cap = none := by
    unfold LimitInputs.cap LimitRaise.apply at *
    cases hoverride : I.override with
    | none => rfl
    | some o => rw [hoverride] at hcap; exact hcap
  have haddJ : (LimitRaise.apply I (.additive add)).additive = some add := by
    unfold LimitInputs.additive LimitRaise.apply at *
    cases hoverride : I.override with
    | none => rw [hoverride] at hbefore; cases hbefore
    | some o => rfl
  have hraised : (LimitRaise.apply I (.additive add)).raised = I.raised := rfl
  unfold LimitInputs.effective
  rw [hcap, hcapJ, hbefore, haddJ, hraised]
  show Within (if I.raised = -1 then I.raised else max 0 (I.raised + before))
    (if I.raised = -1 then I.raised else max 0 (I.raised + add))
  split
  · exact Within.refl _
  · refine .inr ⟨?_, max_le_max_left 0 (by linarith)⟩
    have := le_max_left 0 (I.raised + before)
    linarith

theorem effective_cap {r : LimitRaise} (hcap : I.cap ≠ none) :
    (r.apply I).effective = I.effective := by
  have hsame : (r.apply I).cap = I.cap := by
    cases r with
    | maxes _ _ => rfl
    | legacy _ => rfl
    | additive add =>
      unfold LimitInputs.cap LimitRaise.apply
      cases I.override <;> rfl
  obtain ⟨hardCap, hhard⟩ := Option.ne_none_iff_exists'.mp hcap
  unfold LimitInputs.effective
  rw [hsame, hhard]

/-- A raise lowers the limit when nothing caps it and `Loses` says so. -/
theorem within_raise (hI : I.Valid) {r : LimitRaise} (hJ : (r.apply I).Valid)
    (hraise : r.Raises I) :
    Within I.effective (r.apply I).effective ↔ I.cap ≠ none ∨ ¬ r.Loses I := by
  by_cases hcap : I.cap = none
  · simp only [hcap, ne_eq, not_true, false_or]
    cases r with
    | maxes planMax addOns => exact within_maxes hI hJ hcap
    | additive add => exact iff_of_true (within_additive hraise hcap) not_false
    | legacy o => exact within_legacy hI hraise hcap
  · rw [effective_cap hcap]
    exact iff_of_true (Within.refl _) (.inl hcap)

/-- Where the limit ends below the plan's max, though nothing may take
from it. -/
theorem floor_iff (hI : I.Valid) :
    (I.cap = none → (∀ add, I.additive = some add → 0 ≤ add) → Within I.planMax I.effective) ↔
      ¬ I.FallsShort := by
  unfold LimitInputs.FallsShort
  rw [not_and, not_and]
  refine forall_congr' fun hcap => forall_congr' fun hadds => ?_
  have heffective : I.effective = added I.additive (max I.base I.floor) := by
    rw [LimitInputs.effective, hcap, hI.raised_eq]
  rw [heffective]
  have hcases := hI.base_cases
  generalize I.base = b at hcases ⊢
  generalize I.floor = f
  rcases hcases with ⟨hu, rfl⟩ | ⟨hu, rfl, hpos⟩
  · simp only [hu, not_true, false_and, or_false, true_and]
    rcases le_or_gt f (-1) with hf | hf
    · -- nothing is above -1, so the limit is unlimited
      have hunlimited : added I.additive (-1) = -1 := by
        unfold added
        cases I.additive <;> simp
      rw [max_eq_left hf, hunlimited]
      simp [Within, not_lt.mpr hf]
    · have hne : f ≠ -1 := by linarith
      rw [max_eq_right hf.le]
      rcases hI.planMax with hplan | ⟨n, hplan⟩
      · have hlimited : added I.additive f ≠ -1 := by
          unfold added
          cases I.additive with
          | none => exact hne
          | some add =>
            have := le_max_left 0 (f + add)
            simp only [hne, if_false]
            linarith
        simp [Within, hplan, hlimited, hf]
      · have hn : (0 : ℚ) ≤ n := Nat.cast_nonneg n
        have hpne : (n : ℚ) ≠ -1 := by linarith
        rw [hplan]
        unfold added Within
        cases I.additive with
        | none => simp [hpne, hne, hf]
        | some add =>
          have hlimited : max 0 (f + add) ≠ -1 := by
            have := le_max_left 0 (f + add)
            linarith
          simp only [hne, if_false, hlimited, false_or, hpne, ne_eq, not_false_eq_true,
            true_and, false_and, hf, Option.getD_some, reduceCtorEq, not_and, not_lt,
            le_max_iff]
          constructor
          · rintro (hle | hle) hlt
            · exact hle
            · linarith
          · intro h
            rcases le_or_gt (n : ℚ) (f + add) with hle | hlt
            · exact .inr hle
            · exact .inl (h hlt)
  · have hplan : I.planMax ≠ -1 := fun hplan => hu (runsOut_of_start hplan)
    have hsum : added I.additive (max I.total f) = max I.total f + I.additive.getD 0 := by
      have hnumber : 0 ≤ max I.total f := le_max_of_le_left hpos
      unfold added
      cases hadditive : I.additive with
      | none => exact (add_zero _).symm
      | some add =>
        have hadd := hadds add hadditive
        have hne : max I.total f ≠ -1 := by linarith
        simp only [hne, if_false, Option.getD_some]
        exact max_eq_right (by linarith)
    have hD : 0 ≤ I.additive.getD 0 := by
      cases hadditive : I.additive with
      | none => exact le_refl 0
      | some add => exact hadds add hadditive
    have hlimited : max I.total f + I.additive.getD 0 ≠ -1 := by
      have := le_max_left I.total f
      linarith
    rw [hsum]
    simp only [Within, hlimited, hplan, hu, ne_eq, not_false_eq_true, true_and, false_and,
      false_or, not_and, not_lt]
    constructor
    · intro hle hlt
      rcases le_total I.total f with hmax | hmax
      · rwa [max_eq_right hmax] at hle
      · rw [max_eq_left hmax] at hle
        linarith
    · intro h
      have htotal := le_max_left I.total f
      have hfloor := le_max_right I.total f
      rcases le_or_gt I.planMax (I.total + I.additive.getD 0) with hle | hlt
      · linarith
      · linarith [h hlt]

end Follows

/-! ### What the limit follows -/

/-- Where the store says nothing the access set computes the same. -/
theorem effectiveMaxOf_eq_run {call : LimitCall} (hnone : call.inputs.override = none)
    {config : ComputeAccessSetConfig} (hdef : config.accessDef = call.config.accessDef)
    {source : LimitSource} (haddOns : source.addOns = call.addOns)
    (hoverrides : source.overrides = some call.subscription.overrides) {limitDef : LimitDef}
    (hmax : limitDef.max = call.basePlanMax) :
    call.run = .ok (effectiveMaxOf config source call.limitKey limitDef) := by
  have hraised : call.inputs.effective = call.inputs.raised := by
    unfold LimitInputs.effective LimitInputs.cap LimitInputs.additive
    rw [hnone]
    rfl
  have hbase : addAddOns config.accessDef call.limitKey (source.addOns.getD []) limitDef.max
      = call.inputs.base := by
    rw [hdef, haddOns, hmax]
    exact addAddOns_eq _ _ _ _
  rw [run_eq, hraised]
  unfold effectiveMaxOf LimitInputs.raised
  rw [hbase, hoverrides]
  rfl

/-- An effective limit follows a raise except where `Loses` says not, is
not below the plan's max except where it falls short, and is the limit
of the access set when the override store has none. -/
theorem effectiveLimit_follows (call : LimitCall) :
    (∀ (after : LimitCall) (r : LimitRaise), call.inputs.Valid → after.inputs.Valid →
      after.inputs = r.apply call.inputs → r.Raises call.inputs →
      ∃ limit limit', call.run = .ok limit ∧ after.run = .ok limit' ∧
        (Within limit limit' ↔ call.inputs.cap ≠ none ∨ ¬ r.Loses call.inputs)) ∧
    (call.inputs.Valid → ∃ limit, call.run = .ok limit ∧
      ((call.inputs.cap = none → (∀ add, call.inputs.additive = some add → 0 ≤ add) →
          Within call.basePlanMax limit) ↔ ¬ call.inputs.FallsShort)) ∧
    ∀ (config : ComputeAccessSetConfig) (source : LimitSource) (limitDef : LimitDef),
      call.inputs.override = none →
      config.accessDef = call.config.accessDef → source.addOns = call.addOns →
      source.overrides = some call.subscription.overrides → limitDef.max = call.basePlanMax →
      call.run = .ok (effectiveMaxOf config source call.limitKey limitDef) := by
  refine ⟨?_, ?_, ?_⟩
  · intro after r hbefore hafter happly hraise
    refine ⟨_, _, run_eq call, run_eq after, ?_⟩
    rw [happly] at hafter ⊢
    exact within_raise hbefore hafter hraise
  · intro hvalid
    exact ⟨_, run_eq call, floor_iff hvalid⟩
  · intro config source limitDef hnone hdef haddOns hoverrides hmax
    exact effectiveMaxOf_eq_run hnone hdef haddOns hoverrides hmax

/-! ### A team with an add-on -/

def seatsLimit (seats : ℚ) : LimitDef := ⟨seats, none, none⟩

/-- A team whose plan has `planMax` seats, with an add-on of five. -/
def seatsCall (planMax : ℚ) (legacy : Record ℚ) : LimitCall where
  config := { teamConfig (seatsLimit planMax) with
    accessDef := { (teamConfig (seatsLimit planMax)).accessDef with
      plans := some (.ofList [("pro", ⟨none, some (.ofList [("seats", seatsLimit planMax)])⟩),
        ("extra", ⟨none, some (.ofList [("seats", seatsLimit 5)])⟩)]) } }
  basePlanMax := planMax
  limitKey := "seats"
  org := ⟨"team", "t1"⟩
  subscription := ⟨"pro", 0, none, legacy⟩
  overrides := none
  addOns := some ["extra"]
  reply := fun op =>
    match op with
    | .getAddOns _ _ => .ok (some ["extra"])
    | _ => .error ⟨"unexpected"⟩
  answered := rfl

theorem seatsCall_inputs (planMax : ℚ) (legacy : Record ℚ) :
    (seatsCall planMax legacy).inputs = ⟨planMax, [5], legacy.get? "seats", none⟩ := by
  rfl

theorem seatsCall_valid {planMax : ℚ} (h : ValidMax planMax) (legacy : Record ℚ) :
    (seatsCall planMax legacy).inputs.Valid := by
  rw [seatsCall_inputs]
  refine ⟨h, fun m hm => .inr ⟨5, ?_⟩⟩
  rw [List.mem_singleton.mp hm]
  norm_num

theorem validMax_natCast (n : ℕ) : ValidMax n := .inr ⟨n, rfl⟩

def seatsAccessSet (planMax : ℚ) : ComputeAccessSetConfig where
  userId := some "u1"
  accessDef := (seatsCall planMax .empty).config.accessDef
  roleStore := {}
  closureStore := {}
  flagStore := false
  subscriptionStore := true
  walletStore := true
  tenantId := some "t1"
  tenantLevel := some "team"
  ancestorResolver := false
  now := 0

def seatsSource (planMax : ℚ) : LimitSource :=
  ⟨⟨none, some (.ofList [("seats", seatsLimit planMax)])⟩, some ["extra"], some .empty, 0⟩

/-- Ten more seats in the plan are ten more seats. -/
theorem seats_follow :
    (∃ limit limit', (seatsCall 10 .empty).run = .ok limit ∧
      (seatsCall 20 .empty).run = .ok limit' ∧ Within limit limit') ∧
    (∃ limit, (seatsCall 10 .empty).run = .ok limit ∧ Within 10 limit) ∧
    (seatsCall 10 .empty).run
      = .ok (effectiveMaxOf (seatsAccessSet 10) (seatsSource 10) "seats" (seatsLimit 10)) := by
  obtain ⟨hraise, hfloor, hsame⟩ := effectiveLimit_follows (seatsCall 10 .empty)
  have hten : (seatsCall 10 .empty).inputs.Valid := seatsCall_valid (validMax_natCast 10) _
  have htwenty : (seatsCall 20 .empty).inputs.Valid := seatsCall_valid (validMax_natCast 20) _
  have hlimited : ¬ RunsOut 10 [5] := by norm_num [RunsOut]
  have hlimited' : ¬ RunsOut 20 [5] := by norm_num [RunsOut]
  refine ⟨?_, ?_, hsame _ _ _ rfl rfl rfl rfl rfl⟩
  · obtain ⟨limit, limit', hrun, hrun', hwithin⟩ := hraise
      (seatsCall 20 .empty) (.maxes 20 [5]) hten htwenty rfl
      ⟨(show Within 10 20 from .inr (by norm_num)), .cons (Within.refl 5) .nil⟩
    refine ⟨limit, limit', hrun, hrun', hwithin.mpr (.inr ?_)⟩
    rw [seatsCall_inputs]
    rintro (⟨hunlimited, _⟩ | ⟨_, _, hlower, _⟩)
    · exact hlimited hunlimited
    · have := hlower hlimited'
      norm_num [LimitInputs.total] at this
  · obtain ⟨limit, hrun, hfalls⟩ := hfloor hten
    refine ⟨limit, hrun, hfalls.mpr ?_ rfl (fun _ h => nomatch h)⟩
    rw [seatsCall_inputs]
    rintro ⟨_, _, ⟨hplan, _⟩ | ⟨_, hunlimited, _⟩ | ⟨_, hshort, _⟩⟩
    · norm_num at hplan
    · exact hlimited hunlimited
    · norm_num [LimitInputs.total, LimitInputs.additive] at hshort

/-- With twelve seats set in the subscription, a plan that becomes
unlimited leaves twelve of the fifteen seats there were. -/
theorem unlimited_plan_capped :
    ¬ ∀ (before after : LimitCall) (r : LimitRaise), before.inputs.Valid → after.inputs.Valid →
      after.inputs = r.apply before.inputs → r.Raises before.inputs →
      ∃ limit limit', before.run = .ok limit ∧ after.run = .ok limit' ∧ Within limit limit' := by
  intro h
  obtain ⟨limit, limit', hrun, hrun', hwithin⟩ := h (seatsCall 10 (.ofList [("seats", 12)]))
    (seatsCall (-1) (.ofList [("seats", 12)])) (.maxes (-1) [5])
    (seatsCall_valid (validMax_natCast 10) _) (seatsCall_valid (.inl rfl) _) rfl
    ⟨.inl rfl, .cons (Within.refl 5) .nil⟩
  rw [run_eq, seatsCall_inputs] at hrun hrun'
  have htwelve : (Record.ofList [("seats", (12 : ℚ))]).get? "seats" = some 12 := rfl
  have hbefore : limit = 15 := by
    rw [← Except.ok.inj hrun, htwelve]
    norm_num [LimitInputs.effective, LimitInputs.cap, LimitInputs.additive, LimitInputs.raised,
      LimitInputs.base, LimitInputs.Unlimited, LimitInputs.total, RunsOut, added]
  have hafter : limit' = 12 := by
    rw [← Except.ok.inj hrun', htwelve]
    norm_num [LimitInputs.effective, LimitInputs.cap, LimitInputs.additive, LimitInputs.raised,
      LimitInputs.base, LimitInputs.Unlimited, LimitInputs.total, RunsOut, added]
  rw [hbefore, hafter] at hwithin
  norm_num [Within] at hwithin

end Vertz.Proofs
