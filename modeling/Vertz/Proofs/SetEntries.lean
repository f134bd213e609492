import Vertz.Proofs.RoleChanges

/-!
# `Vertz.Proofs.SetEntries`: what each layer of a computed set does to an entry

`EntryIs` says that an entry is there and when it allows. Every loop of
`computeAccessSet` updates entries by name, and adds one condition to each
(`EntryIs.foldl`).
-/

namespace Vertz.Proofs

open Vertz.Lib
open Vertz.Server.Auth
open Vertz.Spec List Record

/-! ### The roles of a user -/

/-- Some type of the map has the role. -/
def HasRole (map : Record (List String)) (role : String) : Prop :=
  ∃ type roles, map.get? type = some roles ∧ role ∈ roles

theorem hasRole_addRole {map : Record (List String)} {type added role : String} :
    HasRole (addRole map type added) role ↔ HasRole map role ∨ role = added := by
  unfold HasRole addRole
  simp only [get?_insert]
  constructor
  · intro h
    obtain ⟨type', roles, hget, hrole⟩ := h
    split at hget
    · rename_i htype
      subst htype
      cases hget
      -- the new list is the old one, with the added role
      cases hold : map.get? type with
      | none => simp_all
      | some old =>
        rw [hold, Option.getD_some] at hrole
        split at hrole
        · exact .inl ⟨type, old, hold, hrole⟩
        · rcases mem_append.mp hrole with hrole | hrole
          · exact .inl ⟨type, old, hold, hrole⟩
          · exact .inr (mem_singleton.mp hrole)
    · exact .inl ⟨type', roles, hget, hrole⟩
  · intro h
    rcases h with ⟨type', roles, hget, hrole⟩ | rfl
    · by_cases htype : type = type'
      · subst htype
        refine ⟨type, _, if_pos rfl, ?_⟩
        rw [hget, Option.getD_some]
        split
        · exact hrole
        · exact mem_append_left _ hrole
      · exact ⟨type', roles, (if_neg htype).trans hget, hrole⟩
    · refine ⟨type, _, if_pos rfl, ?_⟩
      split
      · assumption
      · exact mem_append_right _ (mem_singleton.mpr rfl)

theorem hasRole_addInherited {accessDef : AccessDefinition} {assignment : RoleAssignment}
    {descendants : List ClosureEntry} {map : Record (List String)} {role : String} :
    HasRole (descendants.foldl (addInheritedRole accessDef assignment) map) role
      ↔ HasRole map role ∨ ∃ desc ∈ descendants, desc.depth ≠ 0 ∧
        present (resolveInheritedRole assignment.resource.type assignment.role
          desc.resource.type accessDef) = some role := by
  induction descendants generalizing map with
  | nil => simp
  | cons desc descendants ih =>
    have hstep : HasRole (addInheritedRole accessDef assignment map desc) role
        ↔ HasRole map role ∨ (desc.depth ≠ 0 ∧ present (resolveInheritedRole
          assignment.resource.type assignment.role desc.resource.type accessDef)
            = some role) := by
      unfold addInheritedRole
      by_cases hdepth : desc.depth = 0
      · simp [hdepth]
      · rw [if_neg hdepth]
        cases present (resolveInheritedRole assignment.resource.type assignment.role
            desc.resource.type accessDef) with
        | none => simp
        | some inherited => simp [hasRole_addRole, hdepth, eq_comm]
    rw [foldl_cons, ih, hstep, exists_mem_cons_iff, or_assoc]

theorem hasRole_addAssignments {accessDef : AccessDefinition}
    {closureStore : InMemoryClosureStore} {assignments : List RoleAssignment}
    {map : Record (List String)} {role : String} :
    HasRole (assignments.foldl (addAssignment accessDef closureStore) map) role
      ↔ HasRole map role ∨ ∃ a ∈ assignments, role = a.role
        ∨ ∃ desc ∈ closureStore.getDescendants a.resource, desc.depth ≠ 0 ∧
          present (resolveInheritedRole a.resource.type a.role desc.resource.type accessDef)
            = some role := by
  induction assignments generalizing map with
  | nil => simp
  | cons assignment assignments ih =>
    rw [foldl_cons, ih, addAssignment, hasRole_addInherited, hasRole_addRole,
      exists_mem_cons_iff, or_assoc, or_assoc, or_assoc]

theorem mem_allRoles {accessDef : AccessDefinition} {roleStore : InMemoryRoleAssignmentStore}
    {closureStore : InMemoryClosureStore} {userId role : String} :
    role ∈ allRoles accessDef roleStore closureStore userId
      ↔ ∃ resource, role ∈ roleStore.candidateRoles userId resource accessDef closureStore := by
  have hflat : role ∈ allRoles accessDef roleStore closureStore userId
      ↔ HasRole (effectiveRolesByType accessDef roleStore closureStore userId) role := by
    unfold allRoles HasRole
    rw [mem_flatMap]
    constructor
    · intro h
      obtain ⟨⟨type, roles⟩, hmem, hrole⟩ := h
      exact ⟨type, roles, (mem_entries_iff _).mp hmem, hrole⟩
    · intro h
      obtain ⟨type, roles, hget, hrole⟩ := h
      exact ⟨(type, roles), (mem_entries_iff _).mpr hget, hrole⟩
  have hempty : ¬ HasRole (.empty : Record (List String)) role := by
    intro h
    obtain ⟨type, roles, hget, -⟩ := h
    cases hget
  rw [hflat, effectiveRolesByType, hasRole_addAssignments, or_iff_right hempty]
  -- a descendant of the assigned resource has that resource among its ancestors
  simp only [InMemoryRoleAssignmentStore.getRolesForUser, mem_filter, decide_eq_true_eq,
    InMemoryClosureStore.mem_getDescendants, InMemoryRoleAssignmentStore.mem_candidateRoles]
  constructor
  · intro h
    obtain ⟨a, ⟨hmem, rfl⟩, rfl | ⟨desc, hrow, hdepth, hrole⟩⟩ := h
    · exact ⟨a.resource, .inl hmem⟩
    · exact ⟨desc.resource, .inr ⟨a.resource, desc.depth, a.role, hrow, hdepth, hmem, hrole⟩⟩
  · intro h
    obtain ⟨resource, hmem | ⟨ancestor, depth, ancestorRole, hrow, hdepth, hmem, hrole⟩⟩ := h
    · exact ⟨_, ⟨hmem, rfl⟩, .inl rfl⟩
    · exact ⟨_, ⟨hmem, rfl⟩, .inr ⟨⟨resource, depth⟩, hrow, hdepth, hrole⟩⟩

/-! ### Entries -/

/-- The entry is there, and allows exactly when the statement holds. -/
def EntryIs (entitlements : Record AccessCheckData) (name : String) (p : Prop) : Prop :=
  ∃ entry, entitlements.get? name = some entry ∧ (entry.allowed = true ↔ p)

theorem EntryIs.congr {entitlements : Record AccessCheckData} {name : String} {p q : Prop}
    (h : EntryIs entitlements name p) (hpq : p ↔ q) : EntryIs entitlements name q := by
  obtain ⟨entry, hget, hallowed⟩ := h
  exact ⟨entry, hget, hallowed.trans hpq⟩

theorem EntryIs.modify {entitlements : Record AccessCheckData} {name updated : String}
    {p q : Prop} {f : AccessCheckData → AccessCheckData} (h : EntryIs entitlements name p)
    (hf : updated = name → ∀ entry, (f entry).allowed = true ↔ entry.allowed = true ∧ q) :
    EntryIs (entitlements.modify updated f) name (p ∧ (updated = name → q)) := by
  obtain ⟨entry, hget, hallowed⟩ := h
  by_cases hname : updated = name
  · refine ⟨f entry, ?_, ?_⟩
    · rw [get?_modify, if_pos hname, hget]
      rfl
    · rw [hf hname, hallowed]
      simp [hname]
  · refine ⟨entry, ?_, ?_⟩
    · rw [get?_modify, if_neg hname]
      exact hget
    · simp [hallowed, hname]

theorem EntryIs.foldl {α : Type} {nameOf : α → String}
    {f : α → AccessCheckData → AccessCheckData} {q : α → Prop} {name : String} {items : List α}
    {entitlements : Record AccessCheckData} {p : Prop} (h : EntryIs entitlements name p)
    (hf : ∀ a ∈ items, nameOf a = name → ∀ entry,
      (f a entry).allowed = true ↔ entry.allowed = true ∧ q a) :
    EntryIs (items.foldl (fun acc a => acc.modify (nameOf a) (f a)) entitlements) name
      (p ∧ ∀ a ∈ items, nameOf a = name → q a) := by
  induction items generalizing entitlements p with
  | nil => exact h.congr (by simp)
  | cons a items ih =>
    have hstep := h.modify (hf a mem_cons_self)
    have hrest := ih hstep fun b hb => hf b (mem_cons_of_mem a hb)
    exact hrest.congr (by rw [forall_mem_cons, and_assoc])

/-- A loop over the entitlements of the definition. -/
theorem EntryIs.updateEach {accessDef : AccessDefinition}
    {update : String → EntitlementDef → AccessCheckData → AccessCheckData} {name : String}
    {entDef : EntitlementDef} {entitlements : Record AccessCheckData} {p q : Prop}
    (h : EntryIs entitlements name p) (hent : accessDef.entitlements.get? name = some entDef)
    (hf : ∀ entry, (update name entDef entry).allowed = true ↔ entry.allowed = true ∧ q) :
    EntryIs (updateEach accessDef update entitlements) name (p ∧ q) := by
  -- the definition has the entitlement once
  have honly : ∀ e ∈ accessDef.entitlements.entries, e.1 = name → e = (name, entDef) := by
    rintro ⟨name', entDef'⟩ hmem rfl
    have hget := (mem_entries_iff _).mp hmem
    rw [hent] at hget
    cases hget
    rfl
  have hloop := h.foldl (fun e he hname entry => by
    rw [honly e he hname]
    exact hf entry : ∀ e ∈ accessDef.entitlements.entries, e.1 = name → ∀ entry,
      (update e.1 e.2 entry).allowed = true ↔ entry.allowed = true ∧ q)
  refine hloop.congr (and_congr_right fun _ => ?_)
  exact ⟨fun hall => hall _ ((mem_entries_iff _).mpr hent) rfl, fun hq _ _ _ => hq⟩

@[simp] theorem allowed_deny (entry : AccessCheckData) (reason : DenialReason)
    (describe : DenialMeta → DenialMeta) : (entry.deny reason describe).allowed = false := rfl

@[simp] theorem allowed_setLimit (entry : AccessCheckData) (limit : LimitMeta) :
    (entry.setLimit limit).allowed = entry.allowed := rfl

theorem EntryIs.roles {accessDef : AccessDefinition} {roles : List String} {name : String}
    {entDef : EntitlementDef} (hent : accessDef.entitlements.get? name = some entDef) :
    EntryIs (accessDef.entitlements.mapValues (roleEntry roles)) name
      (entDef.roles = [] ∨ ∃ role ∈ entDef.roles, role ∈ roles) := by
  refine ⟨roleEntry roles entDef, ?_, ?_⟩
  · rw [get?_mapValues, hent]
    rfl
  · unfold roleEntry
    by_cases hnil : entDef.roles = []
    · simp [hnil]
    · rw [if_neg (by simpa using hnil)]
      simp only [any_eq_true, contains_iff_mem, hnil, false_or]
      split <;> simp_all

/-- The second layer asks for the flags. -/
theorem allowed_denyDisabled {resolvedFlags : Record Bool} {entDef : EntitlementDef}
    (entry : AccessCheckData) :
    (denyDisabled resolvedFlags entDef entry).allowed = true ↔ entry.allowed = true ∧
      ((entDef.flags.getD []).all fun flag => (resolvedFlags.get? flag).getD false) = true := by
  unfold denyDisabled
  split
  · next hnone =>
      have hall : ∀ flag ∈ entDef.flags.getD [], (resolvedFlags.get? flag).getD false = true := by
        intro flag hflag
        simpa using filter_eq_nil_iff.mp hnone flag hflag
      simpa using fun _ => hall
  · next flag flags hsome =>
      have hmem : flag ∈ (entDef.flags.getD []).filter
          fun flag => !(resolvedFlags.get? flag).getD false := by
        rw [hsome]
        exact mem_cons_self
      obtain ⟨hflag, hoff⟩ := mem_filter.mp hmem
      simp only [allowed_deny, Bool.false_eq_true, all_eq_true, false_iff, not_and]
      intro _ hall
      rw [hall flag hflag] at hoff
      cases hoff

/-- The third layer asks for the feature where plans gate the name. -/
theorem allowed_denyUnplanned {config : ComputeAccessSetConfig} {hasFeature : Bool}
    {name : String} (entry : AccessCheckData) :
    (denyUnplanned config hasFeature name entry).allowed = true ↔ entry.allowed = true ∧
      (name ∈ config.accessDef.planGatedEntitlements → hasFeature = true) := by
  unfold denyUnplanned
  cases hasFeature <;> by_cases hgated : name ∈ config.accessDef.planGatedEntitlements <;>
    simp [hgated]

/-- The last layer asks for room under the limit. -/
theorem allowed_enrichEntry {pending : PendingLimit} {consumed : ℚ} (entry : AccessCheckData) :
    (enrichEntry pending consumed entry).allowed = true ↔
      entry.allowed = true ∧ consumed < pending.effectiveMax := by
  unfold enrichEntry
  by_cases hover : consumed ≥ pending.effectiveMax
  · simp [hover]
  · simp [hover, not_le.mp hover]

/-! ### Flags of a tenant -/

section Layers

variable (config : ComputeAccessSetConfig) (states : StoreStates)

/-- The tenant and its ancestors. -/
def chainOf (tenantLevel tenantId : String) : List AncestorChainEntry :=
  ⟨tenantLevel, tenantId, 0⟩ :: sortByDepth (states.ancestors ⟨tenantLevel, tenantId⟩)

theorem mem_chainOf {tenantLevel tenantId : String} {entry : AncestorChainEntry} :
    entry ∈ chainOf states tenantLevel tenantId ↔
      entry = ⟨tenantLevel, tenantId, 0⟩ ∨ entry ∈ states.ancestors ⟨tenantLevel, tenantId⟩ := by
  simp [chainOf, sortByDepth]

theorem tenantChain_eval (tenantLevel tenantId : String) :
    evalExcept (storeReplies config states) (tenantChain tenantLevel tenantId)
      = .ok (chainOf states tenantLevel tenantId) := rfl

theorem flagsByLevel_eval (chain : List AncestorChainEntry) :
    evalExcept (storeReplies config states) (flagsByLevel chain)
      = .ok (chain.map fun entry => states.flags ⟨entry.type, entry.id⟩) := by
  induction chain with
  | nil => rfl
  | cons entry chain ih =>
    unfold flagsByLevel
    simp only [evalExcept_bind, ih]
    rfl

theorem get?_resolveFlags (levels : List (Record Bool)) (flag : String) :
    ((resolveFlags levels).get? flag).getD false
      = (levels.findSome? fun flags => flags.get? flag).getD false := by
  unfold resolveFlags Record.ofList
  rw [get?_insertAll_map]
  split
  · rfl
  · next hnot =>
      -- a flag that is no key of any level is found at none
      have hnone : (levels.findSome? fun flags => flags.get? flag) = none := by
        rw [findSome?_eq_none_iff]
        intro flags hflags
        rw [← Option.not_isSome_iff_eq_none, ← mem_keys_iff]
        exact fun hkey => hnot (mem_flatMap.mpr ⟨flags, hflags, hkey⟩)
      rw [hnone]
      rfl

/-- Whether the flag is on for the tenant: as the deepest level that has it
says. -/
def flagOn (tenantId flag : String) : Bool :=
  match multiLevel config with
  | some (tenantLevel, tenantId) => ((chainOf states tenantLevel tenantId).findSome? fun entry =>
    (states.flags ⟨entry.type, entry.id⟩).get? flag).getD false
  | none => ((states.flags (tenantOf config tenantId)).get? flag).getD false

def flagsOn (tenantId : String) (entDef : EntitlementDef) : Bool :=
  !config.flagStore || (entDef.flags.getD []).all (flagOn config states tenantId)

variable {config states}

theorem tenantFlags_eval (tenantId : String) :
    ∃ resolvedFlags, evalExcept (storeReplies config states) (tenantFlags config tenantId)
        = .ok resolvedFlags ∧
      ∀ flag, (resolvedFlags.get? flag).getD false = flagOn config states tenantId flag := by
  unfold tenantFlags flagOn
  cases hmulti : multiLevel config with
  | none => exact ⟨_, rfl, fun flag => rfl⟩
  | some level =>
    refine ⟨resolveFlags ((chainOf states level.1 level.2).map
      fun entry => states.flags ⟨entry.type, entry.id⟩), ?_, fun flag => ?_⟩
    · simp only [evalExcept_bind, tenantChain_eval, flagsByLevel_eval, ok_bind, evalExcept_pure]
    · rw [get?_resolveFlags, findSome?_map]
      rfl

theorem applyFlags_eval {tenantId name : String} {entDef : EntitlementDef}
    {entitlements : Record AccessCheckData} {p : Prop} (h : EntryIs entitlements name p)
    (hent : config.accessDef.entitlements.get? name = some entDef) :
    ∃ flags denied, evalExcept (storeReplies config states)
        (applyFlags config tenantId entitlements) = .ok (flags, denied) ∧
      EntryIs denied name (p ∧ flagsOn config states tenantId entDef = true) := by
  unfold applyFlags
  by_cases hstore : config.flagStore = true
  · obtain ⟨resolvedFlags, heval, hflag⟩ := @tenantFlags_eval config states tenantId
    refine ⟨resolvedFlags, updateEach config.accessDef
      (fun _ entDef => denyDisabled resolvedFlags entDef) entitlements, ?_,
      h.updateEach hent fun entry => ?_⟩
    · rw [if_pos hstore, evalExcept_bind, heval]
      rfl
    · rw [allowed_denyDisabled]
      simp only [hflag, flagsOn, hstore, Bool.not_true, Bool.false_or]
  · refine ⟨.empty, entitlements, ?_, h.congr ?_⟩
    · rw [if_neg hstore]
      rfl
    · simp [flagsOn, hstore]

end Layers

end Vertz.Proofs
