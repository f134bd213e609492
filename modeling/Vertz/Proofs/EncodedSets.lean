import Vertz.Server.Auth.AccessSet

/-!
# `Vertz.Proofs.EncodedSets`: what survives in the token

`decode_encode`: whether an entitlement is allowed survives, as do flags
and plans. Of a denied entitlement the reasons survive when there is
metadata with them, or when the role is the only one (`Tells`). An entry
whose metadata is about the organization alone is gone when the set is
encoded once more.
-/

namespace Vertz.Proofs

open Vertz.Lib
open Vertz.Server.Auth List Record Option

/-- A set with an entry for each entitlement of a definition. -/
structure AccessSetOver (accessDef : AccessDefinition) where
  set : AccessSet
  keys : ∀ name, name ∈ set.entitlements.keys ↔ name ∈ accessDef.entitlements.keys

/-- The token has the reasons of the entry. -/
def Tells (check : AccessCheckData) : Prop :=
  if check.allowed then check.reasons = []
  else (∃ details, check.details = some details ∧ details ≠ Denials.empty.details) ∨
    check.reasons = [.roleRequired]

/-- What is decoded for an entry. -/
def decoded (check : AccessCheckData) : AccessCheckData :=
  match encodeCheck check with
  | some encoded => decodeCheck encoded
  | none => missingEntry

theorem nonempty?_eq_none {details : DenialMeta} :
    details.nonempty? = none ↔ details = Denials.empty.details := by
  simp [DenialMeta.nonempty?]

theorem nonempty?_eq_some {details details' : DenialMeta} :
    details.nonempty? = some details' ↔ details ≠ Denials.empty.details ∧ details = details' := by
  simp [DenialMeta.nonempty?]

theorem bind_nonempty?_eq_none {check : AccessCheckData} :
    check.details.bind DenialMeta.nonempty? = none ↔
      ¬ ∃ details, check.details = some details ∧ details ≠ Denials.empty.details := by
  cases check.details with
  | none => simp
  | some details => simp [nonempty?_eq_none]

theorem decoded_allowed (check : AccessCheckData) : (decoded check).allowed = check.allowed := by
  unfold decoded encodeCheck
  cases hallowed : check.allowed with
  | true => rfl
  | false => cases check.details.bind DenialMeta.nonempty? <;> rfl

theorem decoded_reasons_iff (check : AccessCheckData) :
    (decoded check).reasons = check.reasons ↔ Tells check := by
  unfold decoded encodeCheck Tells
  cases hallowed : check.allowed with
  | true => exact eq_comm
  | false =>
    cases hdetails : check.details.bind DenialMeta.nonempty? with
    | none =>
      have hnone := bind_nonempty?_eq_none.mp hdetails
      show [.roleRequired] = check.reasons ↔ _ ∨ check.reasons = [.roleRequired]
      rw [or_iff_right hnone, eq_comm]
    | some details =>
      have hsome : ∃ details, check.details = some details ∧
          details ≠ Denials.empty.details := by
        by_contra hnone
        rw [bind_nonempty?_eq_none.mpr hnone] at hdetails
        cases hdetails
      refine iff_of_true ?_ (.inl hsome)
      show (if check.reasons = [] then none else some check.reasons).getD [] = check.reasons
      split_ifs with hempty
      · exact hempty.symm
      · rfl

/-! ### The missing entries -/

theorem fillMissing_entries (names : List String) (r : Record AccessCheckData) :
    ∃ more, (fillMissing names r).entries = r.entries ++ more ∧
      ∀ e ∈ more, e.2 = missingEntry := by
  induction names generalizing r with
  | nil => exact ⟨[], (append_nil _).symm, by simp⟩
  | cons name names ih =>
    show ∃ more, (fillMissing names (if name ∈ r.keys then r else r.insert name missingEntry)).entries =
      r.entries ++ more ∧ _
    split_ifs with hmem
    · exact ih r
    · obtain ⟨more, hentries, hmore⟩ := ih (r.insert name missingEntry)
      refine ⟨(name, missingEntry) :: more, ?_, forall_mem_cons.mpr ⟨rfl, hmore⟩⟩
      rw [hentries]
      show Record.put name missingEntry r.entries ++ more = _
      rw [put_of_not_mem hmem, append_assoc]
      rfl

theorem get?_fillMissing (names : List String) (r : Record AccessCheckData) (name : String) :
    (fillMissing names r).get? name = (r.get? name).or
      (if name ∈ names then some missingEntry else none) := by
  induction names generalizing r with
  | nil => simp [fillMissing]
  | cons name' names ih =>
    show (fillMissing names (if name' ∈ r.keys then r else r.insert name' missingEntry)).get? name = _
    rw [ih]
    by_cases hname : name = name'
    · subst hname
      by_cases hmem : name ∈ r.keys
      · obtain ⟨check, hcheck⟩ := isSome_iff_exists.mp ((mem_keys_iff r).mp hmem)
        simp [hmem, hcheck]
      · have hnone : r.get? name = none := by
          rwa [mem_keys_iff, not_isSome_iff_eq_none] at hmem
        simp [hmem, hnone]
    · by_cases hmem : name' ∈ r.keys
      · simp [hmem, hname]
      · simp [hmem, hname, get?_insert, Ne.symm hname]

/-! ### Entries and sets -/

theorem decode_encode_get? {accessDef : AccessDefinition} (s : AccessSetOver accessDef)
    (name : String) :
    (decodeAccessSet (encodeAccessSet s.set) accessDef).entitlements.get? name =
      (s.set.entitlements.get? name).map decoded := by
  show (fillMissing _ ((s.set.entitlements.filterMapValues encodeCheck).mapValues _)).get? name = _
  rw [get?_fillMissing, get?_mapValues, get?_filterMapValues]
  have hkeys := s.keys name
  rw [mem_keys_iff] at hkeys
  cases hcheck : s.set.entitlements.get? name with
  | none =>
    have hmissing : name ∉ accessDef.entitlements.keys := by
      rw [← hkeys, hcheck]
      exact Bool.false_ne_true
    rw [if_neg hmissing]
    rfl
  | some check =>
    have hmem : name ∈ accessDef.entitlements.keys := by
      rw [← hkeys, hcheck]
      rfl
    rw [if_pos hmem, bind_some, map_some, decoded]
    cases encodeCheck check <;> rfl

theorem encode_decodeCheck {check : AccessCheckData} {encoded : EncodedAccessCheckData}
    (h : encodeCheck check = some encoded) : encodeCheck (decodeCheck encoded) =
      if encoded.allowed || encoded.details.isSome then some encoded else none := by
  unfold encodeCheck at h
  cases hallowed : check.allowed with
  | true =>
    rw [hallowed, if_pos rfl] at h
    cases h
    cases check.details.bind DenialMeta.limit <;> rfl
  | false =>
    rw [hallowed, if_neg Bool.false_ne_true, map_eq_some_iff] at h
    obtain ⟨details, -, rfl⟩ := h
    have hreasons : (if check.reasons = [] then none else some check.reasons).getD [] =
        check.reasons := by
      split_ifs with hempty
      · exact hempty.symm
      · rfl
    cases hstrip : details.strip.nonempty? with
    | none => rfl
    | some stripped =>
      obtain ⟨hne, rfl⟩ := nonempty?_eq_some.mp hstrip
      have hagain : details.strip.strip = details.strip := rfl
      simp [encodeCheck, decodeCheck, hreasons, hstrip, hagain]

/-- The entries of the encoded set that are encoded again. -/
def encodedAgain (encoded : EncodedAccessSet) : EncodedAccessSet :=
  { encoded with
    entitlements := encoded.entitlements.filterEntries fun e => e.2.allowed || e.2.details.isSome }

theorem encode_decode (set : AccessSet) (accessDef : AccessDefinition) :
    encodeAccessSet (decodeAccessSet (encodeAccessSet set) accessDef) =
      encodedAgain (encodeAccessSet set) := by
  obtain ⟨more, hentries, hmore⟩ := fillMissing_entries accessDef.entitlements.keys
    ((encodeAccessSet set).entitlements.mapValues decodeCheck)
  have hmissing : more.filterMap (fun e => (encodeCheck e.2).map (Prod.mk e.1)) = [] := by
    rw [filterMap_eq_nil_iff]
    intro e he
    rw [hmore e he]
    rfl
  have hagain : (encodeAccessSet (decodeAccessSet (encodeAccessSet set) accessDef)).entitlements =
      (encodedAgain (encodeAccessSet set)).entitlements := by
    refine eq_of_entries ?_
    show (fillMissing _ _).entries.filterMap _ = (encodeAccessSet set).entitlements.entries.filter _
    rw [hentries, filterMap_append, hmissing, append_nil, ← filterMap_eq_filter]
    show (List.map _ _).filterMap _ = _
    rw [filterMap_map]
    refine filterMap_congr fun e he => ?_
    obtain ⟨⟨name, check⟩, -, hencoded⟩ := mem_filterMap.mp he
    obtain ⟨encoded, hcheck, rfl⟩ := map_eq_some_iff.mp hencoded
    show (encodeCheck (decodeCheck encoded)).map _ = _
    rw [encode_decodeCheck hcheck]
    cases hkept : encoded.allowed || encoded.details.isSome <;> simp [Option.guard, hkept]
  exact congrArg (fun entitlements =>
    EncodedAccessSet.mk entitlements set.flags set.plan set.plans set.computedAt) hagain

/-- A set that is read from the token allows the same entitlements and has
the same flags and plans, and the reasons of an entry when the token tells
them. Encoded once more, it lacks the denied entries without metadata. -/
theorem decode_encode (accessDef : AccessDefinition) (s : AccessSetOver accessDef) :
    let encoded := encodeAccessSet s.set
    let again := decodeAccessSet encoded accessDef
    (∀ name, (again.entitlements.get? name).map AccessCheckData.allowed =
      (s.set.entitlements.get? name).map AccessCheckData.allowed) ∧
    (∀ name check, s.set.entitlements.get? name = some check →
      ((again.entitlements.get? name).map AccessCheckData.reasons = some check.reasons ↔
        Tells check)) ∧
    again.flags = s.set.flags ∧ again.plan = s.set.plan ∧ again.plans = s.set.plans ∧
    again.computedAt = s.set.computedAt ∧
    encodeAccessSet again = encodedAgain encoded := by
  refine ⟨fun name => ?_, fun name check hcheck => ?_, rfl, rfl, rfl, rfl,
    encode_decode s.set accessDef⟩
  · rw [decode_encode_get?, Option.map_map]
    exact congrArg (fun f => Option.map f _) (funext decoded_allowed)
  · rw [decode_encode_get?, hcheck, map_some, map_some, some_inj]
    exact decoded_reasons_iff check

/-! ### Reasons that do not survive -/

def oneEntitlement : AccessDefinition where
  hierarchy := ["project"]
  inheritance := .empty
  entitlements := .ofList [("project:view", ⟨["viewer"], none, none⟩)]
  plans := none
  defaultPlan := none
  defaultPlans := none
  planGatedEntitlements := []
  entitlementToLimitKeys := .empty

/-- A set with the one entry. -/
def setWith (check : AccessCheckData) : AccessSetOver oneEntitlement where
  set := ⟨.ofList [("project:view", check)], .empty, none, .empty, 0⟩
  keys _ := Iff.rfl

/-- Nobody is authenticated: the decoded set asks for a role. A plan is
required: the set that is encoded twice does not say so. -/
theorem reasons_lost :
    (∃ s : AccessSetOver oneEntitlement, ∃ check,
      s.set.entitlements.get? "project:view" = some check ∧ check.allowed = false ∧
        ((decodeAccessSet (encodeAccessSet s.set) oneEntitlement).entitlements.get?
          "project:view").map AccessCheckData.reasons ≠ some check.reasons) ∧
    ∃ s : AccessSetOver oneEntitlement,
      (encodeAccessSet (decodeAccessSet (encodeAccessSet s.set) oneEntitlement)).entitlements.get?
        "project:view" ≠ (encodeAccessSet s.set).entitlements.get? "project:view" := by
  refine ⟨⟨setWith ⟨false, [.notAuthenticated], some .notAuthenticated, none⟩, _, rfl, rfl, ?_⟩,
    setWith ⟨false, [.planRequired], some .planRequired,
      some { Denials.empty.details with requiredPlans := some ["pro"] }⟩, ?_⟩
  · decide +kernel
  · decide +kernel

end Vertz.Proofs
