import Vertz.Proofs.AccessDecision

/-!
# `Vertz.Proofs.RoleChanges`: when a better role takes nothing away

`getEffectiveRole_iff` says which role is effective: a candidate in the
order with the least position. `exists_effective` says that a candidate
in the order gives one that is at least as early. `rbacAllows_iff` reads
the role layer as a condition on the effective role.

`Upward.keepsAllowed` follows a candidate through a change; for the other
direction `grants_of_alone` is about a user with a single role.
`keepsAllowed_iff` is the result.

`admin_loses_editor` is a definition in which a second, more permissive
role takes an entitlement away.
-/

namespace Vertz.Server.Auth.InMemoryRoleAssignmentStore

open List

variable {store : InMemoryRoleAssignmentStore}

theorem mem_assign {assignment a : RoleAssignment} :
    a ∈ (store.assign assignment).assignments ↔ a ∈ store.assignments ∨ a = assignment := by
  simp only [assign]
  split
  · next hmem =>
      refine ⟨.inl, ?_⟩
      rintro (h | rfl)
      · exact h
      · exact hmem
  · rw [mem_append, mem_singleton]

theorem mem_revoke {assignment a : RoleAssignment} :
    a ∈ (store.revoke assignment).assignments ↔ a ∈ store.assignments ∧ a ≠ assignment := by
  simp [revoke]

@[simp] theorem mem_getRoles {userId : String} {resource : ResourceRef} {role : String} :
    role ∈ store.getRoles userId resource ↔ ⟨userId, resource, role⟩ ∈ store.assignments := by
  simp only [getRoles, mem_map, mem_filter, decide_eq_true_eq]
  constructor
  · rintro ⟨a, ⟨hmem, rfl, rfl⟩, rfl⟩
    exact hmem
  · intro hmem
    exact ⟨_, ⟨hmem, rfl, rfl⟩, rfl⟩

theorem foldl_best (roleOrder candidates : List String) (start : ℕ) :
    let best := candidates.foldl
      (fun best role =>
        match roleOrder.idxOf? role with
        | some idx => if idx < best then idx else best
        | none => best) start
    best ≤ start ∧
      (∀ role ∈ candidates, ∀ idx, roleOrder.idxOf? role = some idx → best ≤ idx) ∧
      (best = start ∨ ∃ role ∈ candidates, roleOrder.idxOf? role = some best) := by
  induction candidates generalizing start with
  | nil => exact ⟨Nat.le_refl _, nofun, .inl rfl⟩
  | cons c candidates ih =>
    cases hc : roleOrder.idxOf? c with
    | none =>
      obtain ⟨hstart, hall, hattained⟩ := ih start
      simp only [foldl_cons, hc]
      refine ⟨hstart, ?_, hattained.imp_right ?_⟩
      · rintro role (_ | ⟨_, hrole⟩) idx hidx
        · rw [hc] at hidx
          cases hidx
        · exact hall role hrole idx hidx
      · rintro ⟨role, hrole, hidx⟩
        exact ⟨role, mem_cons_of_mem _ hrole, hidx⟩
    | some i =>
      obtain ⟨hstart, hall, hattained⟩ := ih (if i < start then i else start)
      simp only [foldl_cons, hc]
      have hmin : (if i < start then i else start) ≤ start ∧
          (if i < start then i else start) ≤ i := by
        split <;> omega
      refine ⟨Nat.le_trans hstart hmin.1, ?_, ?_⟩
      · rintro role (_ | ⟨_, hrole⟩) idx hidx
        · rw [hc, Option.some.injEq] at hidx
          exact hidx ▸ Nat.le_trans hstart hmin.2
        · exact hall role hrole idx hidx
      · rcases hattained with heq | ⟨role, hrole, hidx⟩
        · by_cases hi : i < start
          · rw [if_pos hi] at heq
            refine .inr ⟨c, mem_cons_self, ?_⟩
            rw [if_pos hi, heq, hc]
          · rw [if_neg hi] at heq
            rw [if_neg hi]
            exact .inl heq
        · exact .inr ⟨role, mem_cons_of_mem _ hrole, hidx⟩

theorem idxOf?_of_mem {roleOrder : List String} {role : String} (h : role ∈ roleOrder) :
    roleOrder.idxOf? role = some (roleOrder.idxOf role) := by
  induction roleOrder with
  | nil => cases h
  | cons x roleOrder ih =>
    rw [idxOf?_cons, idxOf_cons]
    cases hx : x == role with
    | true => rfl
    | false =>
      have hne : role ≠ x := fun heq => by simp [heq] at hx
      rw [ih ((mem_cons.mp h).resolve_left hne)]
      rfl

theorem mem_candidateRoles {userId : String} {resource : ResourceRef} {accessDef : AccessDefinition}
    {closureStore : InMemoryClosureStore} {role : String} :
    role ∈ store.candidateRoles userId resource accessDef closureStore ↔
      ⟨userId, resource, role⟩ ∈ store.assignments ∨
      ∃ ancestor depth ancestorRole, ⟨ancestor, resource, depth⟩ ∈ closureStore.rows ∧
        depth ≠ 0 ∧ ⟨userId, ancestor, ancestorRole⟩ ∈ store.assignments ∧
        present (resolveInheritedRole ancestor.type ancestorRole resource.type accessDef)
          = some role := by
  simp only [candidateRoles, mem_append, mem_getRoles, mem_flatMap,
    InMemoryClosureStore.mem_getAncestors, inheritedRoles]
  refine or_congr_right ⟨?_, ?_⟩
  · rintro ⟨entry, hrow, hmem⟩
    split at hmem
    · cases hmem
    · next hdepth =>
        obtain ⟨ancestorRole, hassigned, hrole⟩ := mem_filterMap.mp hmem
        exact ⟨_, _, ancestorRole, hrow, hdepth, mem_getRoles.mp hassigned, hrole⟩
  · rintro ⟨ancestor, depth, ancestorRole, hrow, hdepth, hassigned, hrole⟩
    refine ⟨⟨ancestor, depth⟩, hrow, ?_⟩
    rw [if_neg hdepth]
    exact mem_filterMap.mpr ⟨ancestorRole, mem_getRoles.mpr hassigned, hrole⟩

variable {store : InMemoryRoleAssignmentStore} {userId : String} {resource : ResourceRef}
  {accessDef : AccessDefinition} {closureStore : InMemoryClosureStore}

/-- The role at the best position is a candidate, and no candidate is
earlier. -/
theorem getElem?_bestIndex {roleOrder candidates : List String} {role : String} :
    roleOrder[bestIndex roleOrder candidates]? = some role ↔
      role ∈ roleOrder ∧ role ∈ candidates ∧
        ∀ c ∈ candidates, c ∈ roleOrder → roleOrder.idxOf role ≤ roleOrder.idxOf c := by
  obtain ⟨-, hall, hattained⟩ := foldl_best roleOrder candidates roleOrder.length
  change bestIndex roleOrder candidates = roleOrder.length ∨
    ∃ role ∈ candidates, roleOrder.idxOf? role = some (bestIndex roleOrder candidates) at hattained
  constructor
  · intro hget
    obtain ⟨hlt, hrole⟩ := List.getElem?_eq_some_iff.mp hget
    rcases hattained with heq | ⟨c, hc, hidx⟩
    · omega
    · obtain ⟨_, hatc, _⟩ := idxOf?_eq_some_iff.mp hidx
      have hsame : c = role := hatc.symm.trans hrole
      subst hsame
      have hmem : c ∈ roleOrder := isSome_idxOf?.mp (by rw [hidx]; rfl)
      rw [idxOf?_of_mem hmem, Option.some.injEq] at hidx
      refine ⟨hmem, hc, fun c' hc' hmem' => ?_⟩
      rw [hidx]
      exact hall c' hc' _ (idxOf?_of_mem hmem')
  · rintro ⟨hmem, hc, hleast⟩
    have hlt := idxOf_lt_length_of_mem hmem
    have hle : bestIndex roleOrder candidates ≤ roleOrder.idxOf role :=
      hall role hc _ (idxOf?_of_mem hmem)
    have heq : bestIndex roleOrder candidates = roleOrder.idxOf role := by
      rcases hattained with heq | ⟨c, hc', hidx⟩
      · omega
      · have hmem' : c ∈ roleOrder := isSome_idxOf?.mp (by rw [hidx]; rfl)
        rw [idxOf?_of_mem hmem', Option.some.injEq] at hidx
        have hleast' := hleast c hc' hmem'
        omega
    rw [heq]
    exact List.getElem?_eq_some_iff.mpr ⟨hlt, List.getElem_idxOf hlt⟩

theorem getEffectiveRole_iff {role : String} :
    store.getEffectiveRole userId resource accessDef closureStore = some role ↔
      ∃ roleOrder, accessDef.roles.get? resource.type = some roleOrder ∧ role ∈ roleOrder ∧
        role ∈ store.candidateRoles userId resource accessDef closureStore ∧
        ∀ c ∈ store.candidateRoles userId resource accessDef closureStore, c ∈ roleOrder →
          roleOrder.idxOf role ≤ roleOrder.idxOf c := by
  simp only [getEffectiveRole]
  cases accessDef.roles.get? resource.type with
  | none => simp
  | some roleOrder =>
    simp only [Option.some.injEq, exists_eq_left']
    rw [← getElem?_bestIndex]
    cases roleOrder with
    | nil => simp
    | cons r rs =>
      cases store.candidateRoles userId resource accessDef closureStore with
      | nil => simp [bestIndex]
      | cons c cs => simp

/-- A candidate in the order gives an effective role at least as early. -/
theorem exists_effective {roleOrder : List String}
    (horder : accessDef.roles.get? resource.type = some roleOrder) {c : String}
    (hc : c ∈ store.candidateRoles userId resource accessDef closureStore)
    (hmem : c ∈ roleOrder) :
    ∃ role, store.getEffectiveRole userId resource accessDef closureStore = some role ∧
      role ∈ roleOrder ∧ roleOrder.idxOf role ≤ roleOrder.idxOf c := by
  obtain ⟨-, hall, hattained⟩ := foldl_best roleOrder
    (store.candidateRoles userId resource accessDef closureStore) roleOrder.length
  have hle := hall c hc _ (idxOf?_of_mem hmem)
  have hlt := idxOf_lt_length_of_mem hmem
  have hget := getElem?_eq_getElem (Nat.lt_of_le_of_lt hle hlt)
  obtain ⟨hrole, hcandidate, hleast⟩ := getElem?_bestIndex.mp hget
  exact ⟨_, getEffectiveRole_iff.mpr ⟨roleOrder, horder, hrole, hcandidate, hleast⟩, hrole,
    hleast c hc hmem⟩

end Vertz.Server.Auth.InMemoryRoleAssignmentStore

namespace Vertz.Proofs

open Vertz.Server.Auth.InMemoryRoleAssignmentStore
open Vertz.Lib Vertz.Server.Auth Vertz.Spec

variable {config : AccessContextConfig} {store : InMemoryRoleAssignmentStore}
  {closureStore : InMemoryClosureStore} {userId entitlement : String} {entDef : EntitlementDef}
  {resource : ResourceRef}

variable {roleOrder : List String}

theorem mem_of_earlier {better worse : String} (h : Earlier roleOrder better worse) :
    better ∈ roleOrder := by
  have hlt := List.idxOf_lt_length_of_mem h.1
  exact List.idxOf_lt_length_iff.mp (Nat.lt_trans h.2 hlt)

/-- An empty role is none. -/
theorem present_eq_some {found : Option String} {role : String} :
    present found = some role ↔ found = some role ∧ role ≠ "" := by
  simp only [present, Option.filter_eq_some_iff, decide_eq_true_eq]

theorem checkRoles_iff (reply : Replies) (hroles : entDef.roles ≠ []) {found : Option String}
    (hreply : reply (.getEffectiveRole userId resource.type resource.id) = .ok found) :
    evalExcept reply (checkRoles config userId entDef entitlement (some resource)) = .ok true ↔
      ∃ role, found = some role ∧
        Grants config.accessDef entitlement entDef resource.type role := by
  have hpresent : ∀ role, (found = some role ∧
      Grants config.accessDef entitlement entDef resource.type role) ↔ (present found = some role ∧
        if resource.type ≠ entitlementEntity entitlement then
          ∃ inherited ∈ entDef.roles, inheritedRole config.accessDef resource.type role
            (entitlementEntity entitlement) = some inherited
        else role ∈ entDef.roles) := by
    intro role
    rw [present_eq_some, Grants, and_assoc]
  simp only [hpresent]
  cases hlist : entDef.roles with
  | nil => exact absurd hlist hroles
  | cons first rest =>
    unfold checkRoles
    rw [hlist]
    simp only [evalExcept_bind, evalExcept_await, hreply]
    cases hrole : present found with
    | none => simp [hrole, bind, Except.bind]
    | some role =>
      by_cases htype : resource.type = entitlementEntity entitlement
      · simp [hrole, htype, bind, Except.bind]
      · cases hinherited : present (resolveInheritedRole resource.type role
            (entitlementEntity entitlement) config.accessDef) <;>
          simp [inheritedRole, hrole, htype, hinherited, bind, Except.bind]

/-- The role layer allows when the entitlement has no roles, or the
effective role on a resource grants it. -/
theorem rbacAllows_iff {resource : Option ResourceRef} :
    RbacAllows config closureStore store userId entitlement resource ↔
      ∃ entDef, config.accessDef.entitlements.get? entitlement = some entDef ∧
        (entDef.roles ≠ [] → ∃ target role, resource = some target ∧
          store.getEffectiveRole userId target config.accessDef closureStore = some role ∧
          Grants config.accessDef entitlement entDef target.type role) := by
  refine exists_congr fun entDef => and_congr_right fun _ => ?_
  by_cases hroles : entDef.roles = []
  · have hallow : evalExcept (roleReplies config.accessDef store closureStore)
        (checkRoles config userId entDef entitlement resource) = .ok true := by
      unfold checkRoles
      rw [hroles]
      rfl
    simp [hroles, hallow]
  · cases resource with
    | none =>
      have hdeny : evalExcept (roleReplies config.accessDef store closureStore)
          (checkRoles config userId entDef entitlement none) = .ok false := by
        unfold checkRoles
        cases hlist : entDef.roles with
        | nil => exact absurd hlist hroles
        | cons first rest => rfl
      simp [hroles, hdeny]
    | some target =>
      rw [checkRoles_iff (roleReplies config.accessDef store closureStore) hroles rfl]
      simp [hroles]

/-! ### Following a candidate -/

/-- A candidate that grants is there after a change, or another one is
that grants too. -/
theorem exists_granting_candidate (hupward : Upward config.accessDef) {change : RoleChange}
    (hchange : change.Improves config.accessDef)
    (hent : config.accessDef.entitlements.get? entitlement = some entDef)
    (hroles : entDef.roles ≠ [])
    (horder : config.accessDef.roles.get? resource.type = some roleOrder) {role : String}
    (hmem : role ∈ roleOrder)
    (hcandidate : role ∈ store.candidateRoles userId resource config.accessDef closureStore)
    (hgrants : Grants config.accessDef entitlement entDef resource.type role) :
    ∃ role' ∈ roleOrder,
      role' ∈ (change.apply store).candidateRoles userId resource config.accessDef closureStore ∧
      Grants config.accessDef entitlement entDef resource.type role' := by
  rw [mem_candidateRoles] at hcandidate
  simp only [mem_candidateRoles]
  cases change with
  | assign assignment =>
    simp only [RoleChange.apply, mem_assign]
    refine ⟨role, hmem, ?_, hgrants⟩
    rcases hcandidate with hdirect | ⟨ancestor, depth, ancestorRole, hrow, hdepth, hassigned, hrole⟩
    · exact .inl (.inl hdirect)
    · exact .inr ⟨ancestor, depth, ancestorRole, hrow, hdepth, .inl hassigned, hrole⟩
  | replace assignment better =>
    obtain ⟨sourceOrder, hsource, hearlier⟩ := hchange
    simp only [RoleChange.apply, mem_assign,
      mem_revoke]
    rcases hcandidate with hdirect | ⟨ancestor, depth, ancestorRole, hrow, hdepth, hassigned, hrole⟩
    · by_cases hreplaced : (⟨userId, resource, role⟩ : RoleAssignment) = assignment
      · subst hreplaced
        rw [horder, Option.some.injEq] at hsource
        subst hsource
        refine ⟨better, mem_of_earlier hearlier, .inl (.inr rfl), ?_⟩
        exact hupward.earlier _ _ hent hroles _ _ horder _ _ hearlier hgrants
      · exact ⟨role, hmem, .inl (.inl ⟨hdirect, hreplaced⟩), hgrants⟩
    · by_cases hreplaced : (⟨userId, ancestor, ancestorRole⟩ : RoleAssignment) = assignment
      · subst hreplaced
        obtain ⟨role', hmem', hrole', hgrants'⟩ := hupward.inherited _ _ hent hroles _ _ horder
          _ _ hsource _ _ hearlier role hmem hrole hgrants
        exact ⟨role', hmem', .inr ⟨ancestor, depth, better, hrow, hdepth, .inr rfl, hrole'⟩,
          hgrants'⟩
      · exact ⟨role, hmem,
          .inr ⟨ancestor, depth, ancestorRole, hrow, hdepth, .inl ⟨hassigned, hreplaced⟩, hrole⟩,
          hgrants⟩

theorem exists_granting_effective (hupward : Upward config.accessDef)
    (hent : config.accessDef.entitlements.get? entitlement = some entDef)
    (hroles : entDef.roles ≠ [])
    (horder : config.accessDef.roles.get? resource.type = some roleOrder) {role : String}
    (hmem : role ∈ roleOrder)
    (hcandidate : role ∈ store.candidateRoles userId resource config.accessDef closureStore)
    (hgrants : Grants config.accessDef entitlement entDef resource.type role) :
    ∃ effective,
      store.getEffectiveRole userId resource config.accessDef closureStore = some effective ∧
      Grants config.accessDef entitlement entDef resource.type effective := by
  obtain ⟨effective, heffective, hmem', hle⟩ :=
    exists_effective horder hcandidate hmem
  refine ⟨effective, heffective, ?_⟩
  rcases Nat.lt_or_eq_of_le hle with hlt | heq
  · exact hupward.earlier _ _ hent hroles _ _ horder _ _ ⟨hmem, hlt⟩ hgrants
  · rw [(List.idxOf_inj hmem').mp heq]
    exact hgrants

theorem keepsAllowed_of_upward (hupward : Upward config.accessDef) : KeepsAllowed config := by
  intro closureStore store change userId entitlement resource hchange hallows
  obtain ⟨entDef, hent, hbefore⟩ := rbacAllows_iff.mp hallows
  refine rbacAllows_iff.mpr ⟨entDef, hent, fun hroles => ?_⟩
  obtain ⟨target, role, rfl, heffective, hgrants⟩ := hbefore hroles
  obtain ⟨roleOrder, horder, hmem, hcandidate, -⟩ :=
    getEffectiveRole_iff.mp heffective
  obtain ⟨role', hmem', hcandidate', hgrants'⟩ := exists_granting_candidate hupward hchange hent
    hroles horder hmem hcandidate hgrants
  obtain ⟨effective, heffective', hgrants''⟩ := exists_granting_effective hupward hent hroles
    horder hmem' hcandidate' hgrants'
  exact ⟨target, effective, rfl, heffective', hgrants''⟩

/-! ### A user with one role -/

/-- The closure table in which a resource has one ancestor. -/
def oneAncestor (ancestor resource : ResourceRef) : InMemoryClosureStore :=
  ⟨[⟨ancestor, resource, 1⟩]⟩

/-- A user without ancestors to inherit from has the earliest role that
was assigned. -/
theorem effective_direct {accessDef : AccessDefinition} {roles roleOrder : List String}
    (horder : accessDef.roles.get? resource.type = some roleOrder) {role : String} :
    (⟨roles.map fun role => ⟨userId, resource, role⟩⟩ :
        InMemoryRoleAssignmentStore).getEffectiveRole userId resource accessDef {} = some role ↔
      role ∈ roleOrder ∧ role ∈ roles ∧
        ∀ c ∈ roles, c ∈ roleOrder → roleOrder.idxOf role ≤ roleOrder.idxOf c := by
  have hcandidates : ∀ c, c ∈ (⟨roles.map fun role => ⟨userId, resource, role⟩⟩ :
      InMemoryRoleAssignmentStore).candidateRoles userId resource accessDef {} ↔ c ∈ roles := by
    intro c
    rw [mem_candidateRoles]
    simp
  rw [getEffectiveRole_iff]
  simp only [hcandidates, horder, Option.some.injEq, exists_eq_left']

theorem effective_inherited {accessDef : AccessDefinition} {ancestor : ResourceRef}
    (hne : ancestor ≠ resource) (horder : accessDef.roles.get? resource.type = some roleOrder)
    {source role : String} :
    (⟨[⟨userId, ancestor, source⟩]⟩ : InMemoryRoleAssignmentStore).getEffectiveRole userId
        resource accessDef (oneAncestor ancestor resource) = some role ↔
      role ∈ roleOrder ∧ inheritedRole accessDef ancestor.type source resource.type = some role := by
  have hcandidates : ∀ c, c ∈ (⟨[⟨userId, ancestor, source⟩]⟩ :
      InMemoryRoleAssignmentStore).candidateRoles userId resource accessDef
        (oneAncestor ancestor resource) ↔
      inheritedRole accessDef ancestor.type source resource.type = some c := by
    intro c
    rw [mem_candidateRoles]
    simp [oneAncestor, inheritedRole, Ne.symm hne]
  rw [getEffectiveRole_iff]
  simp only [hcandidates, horder, Option.some.injEq, exists_eq_left']
  refine and_congr_right fun _ => and_iff_left_of_imp ?_
  intro hrole c hc _
  rw [hrole, Option.some.injEq] at hc
  rw [hc]

theorem upward_of_keepsAllowed (hkeeps : KeepsAllowed config) : Upward config.accessDef where
  earlier entitlement entDef hent hroles type roleOrder horder better worse hearlier hgrants := by
    -- A user with the later role on a resource is assigned the earlier one.
    have hne : better ≠ worse := by
      rintro rfl
      exact Nat.lt_irrefl _ hearlier.2
    let store : InMemoryRoleAssignmentStore :=
      ⟨[worse].map fun role => ⟨"u", ⟨type, "1"⟩, role⟩⟩
    have hbefore : RbacAllows config {} store "u" entitlement (some ⟨type, "1"⟩) := by
      refine rbacAllows_iff.mpr ⟨entDef, hent, fun _ => ⟨⟨type, "1"⟩, worse, rfl, ?_, hgrants⟩⟩
      refine (effective_direct horder).mpr ⟨hearlier.1, List.mem_singleton.mpr rfl, ?_⟩
      intro c hc _
      rw [List.mem_singleton.mp hc]
    have hafter := hkeeps {} store (.assign ⟨"u", ⟨type, "1"⟩, better⟩) "u" entitlement
      (some ⟨type, "1"⟩) trivial hbefore
    have happly : RoleChange.apply store (.assign ⟨"u", ⟨type, "1"⟩, better⟩)
        = ⟨[worse, better].map fun role => ⟨"u", ⟨type, "1"⟩, role⟩⟩ := by
      simp [RoleChange.apply, assign, store, hne]
    rw [happly] at hafter
    obtain ⟨entDef', hent', hgranted⟩ := rbacAllows_iff.mp hafter
    rw [hent, Option.some.injEq] at hent'
    subst hent'
    obtain ⟨target, role, htarget, heffective, hgrants'⟩ := hgranted hroles
    cases htarget
    obtain ⟨-, hrole, hleast⟩ := (effective_direct horder).mp heffective
    have hle := hleast better (by simp) (mem_of_earlier hearlier)
    have hbetter : role = better := by
      rcases List.mem_pair.mp hrole with rfl | rfl
      · exact absurd hearlier.2 (Nat.not_lt.mpr hle)
      · rfl
    exact hbetter ▸ hgrants'
  inherited entitlement entDef hent hroles type roleOrder horder source sourceOrder hsource better
      worse hearlier role hrole hinherited hgrants := by
    -- A user with the later role on an ancestor is given the earlier one.
    have hne : (⟨source, "1"⟩ : ResourceRef) ≠ ⟨type, "2"⟩ := by simp
    let closureStore := oneAncestor ⟨source, "1"⟩ ⟨type, "2"⟩
    have hbefore : RbacAllows config closureStore ⟨[⟨"u", ⟨source, "1"⟩, worse⟩]⟩ "u" entitlement
        (some ⟨type, "2"⟩) := by
      refine rbacAllows_iff.mpr ⟨entDef, hent, fun _ => ⟨⟨type, "2"⟩, role, rfl, ?_, hgrants⟩⟩
      exact (effective_inherited hne horder).mpr ⟨hrole, hinherited⟩
    have hafter := hkeeps closureStore ⟨[⟨"u", ⟨source, "1"⟩, worse⟩]⟩
      (.replace ⟨"u", ⟨source, "1"⟩, worse⟩ better) "u" entitlement (some ⟨type, "2"⟩)
      ⟨sourceOrder, hsource, hearlier⟩ hbefore
    have happly : RoleChange.apply ⟨[⟨"u", ⟨source, "1"⟩, worse⟩]⟩
        (.replace ⟨"u", ⟨source, "1"⟩, worse⟩ better) = ⟨[⟨"u", ⟨source, "1"⟩, better⟩]⟩ := by
      simp [RoleChange.apply, assign,
        revoke]
    rw [happly] at hafter
    obtain ⟨entDef', hent', hgranted⟩ := rbacAllows_iff.mp hafter
    rw [hent, Option.some.injEq] at hent'
    subst hent'
    obtain ⟨target, role', htarget, heffective, hgrants'⟩ := hgranted hroles
    cases htarget
    obtain ⟨hrole', hinherited'⟩ := (effective_inherited hne horder).mp heffective
    exact ⟨role', hrole', hinherited', hgrants'⟩

/-- A change for the better never takes an entitlement away exactly when
the entitlements and the inheritance follow the orders of the roles. -/
theorem keepsAllowed_iff (config : AccessContextConfig) :
    KeepsAllowed config ↔ Upward config.accessDef :=
  ⟨upward_of_keepsAllowed, keepsAllowed_of_upward⟩

/-- Projects have admins and editors, and editors alone can publish. -/
def editorConfig : AccessContextConfig where
  userId := some "u1"
  accessDef :=
    { hierarchy := ["project"]
      inheritance := .empty
      entitlements := .ofList [("project:publish", ⟨["editor"], none, none⟩)]
      plans := none
      defaultPlan := none
      defaultPlans := none
      planGatedEntitlements := []
      entitlementToLimitKeys := .empty
      roles := .ofList [("project", ["admin", "editor"])] }
  flagStore := false
  subscriptionStore := false
  walletStore := false
  overrideStore := false
  orgResolver := false
  planVersionStore := false
  cloudFailMode := none
  tenantLevel := none
  ancestorResolver := false
  now := 0

/-- An editor that is made an admin too can no longer publish. -/
theorem admin_loses_editor : ¬ ∀ config : AccessContextConfig, KeepsAllowed config := by
  intro h
  let editor : RoleAssignment := ⟨"u1", ⟨"project", "1"⟩, "editor"⟩
  let admin : RoleAssignment := ⟨"u1", ⟨"project", "1"⟩, "admin"⟩
  have hbefore : RbacAllows editorConfig {} ⟨[editor]⟩ "u1" "project:publish"
      (some ⟨"project", "1"⟩) := ⟨⟨["editor"], none, none⟩, by decide, by decide⟩
  obtain ⟨entDef, hent, hallows⟩ := h editorConfig {} ⟨[editor]⟩ (.assign admin) "u1"
    "project:publish" (some ⟨"project", "1"⟩) trivial hbefore
  have hsame : entDef = ⟨["editor"], none, none⟩ := Option.some.inj (hent.symm.trans (by decide))
  subst hsame
  exact absurd hallows (by decide)

end Vertz.Proofs
