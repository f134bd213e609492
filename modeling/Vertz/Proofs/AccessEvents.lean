import Vertz.Lib.Run
import Vertz.Ui.Auth.AccessEventHandler

/-!
# `Vertz.Proofs.AccessEvents`: denials across access events

`Watched` follows the access set of a client together with the reasons
that stand against each entitlement, whatever its entry says: the reasons
of the initial set and those that events bring, less those that events
take back. `HoldsDenials` is what is asked of a sequence of events.

`SafeEvent` is the condition on one event. An entitlement whose first
reason is a disabled flag becomes allowed when one of its flags is
enabled, so nothing else may stand against it then. A limit that is reset
may not allow an entitlement whose flags are off.
-/

namespace Vertz.Spec

open Vertz.Lib Vertz.Ui.Auth
open Vertz.Server.Auth (DenialReason)

/-- An access set, and the reasons that stand against each entitlement. -/
structure Watched where
  set : Option ClientAccessSet
  standing : String → List DenialReason

def entryOf (set : Option ClientAccessSet) (name : String) : Option CheckData :=
  set.bind fun current => current.entitlements.get? name

/-- The set knows the flag as enabled. -/
def flagEnabled (set : Option ClientAccessSet) (flag : String) : Bool :=
  (set.bind fun current => current.flags.get? flag) == some true

def Watched.start (set : Option ClientAccessSet) : Watched :=
  ⟨set, fun name => ((entryOf set name).map CheckData.reasons).getD []⟩

section Events

variable (flagEntitlementMap : Option (Record (List String)))

def requiredFlags (name : String) : List String :=
  (flagEntitlementMap.bind fun required => required.get? name).getD []

/-- Every flag that the entitlement requires is enabled. -/
def flagsEnabled (set : Option ClientAccessSet) (name : String) : Bool :=
  (requiredFlags flagEntitlementMap name).all (flagEnabled set)

/-- The reasons after an event that led to `set`. -/
def standingAfter (standing : String → List DenialReason) (set : Option ClientAccessSet)
    (name : String) : ClientAccessEvent → List DenialReason
  | .flagToggled flag enabled =>
    if flag ∉ requiredFlags flagEntitlementMap name then standing name
    else if !enabled then .flagDisabled :: standing name
    else if flagsEnabled flagEntitlementMap set name then
      (standing name).filter (· ≠ .flagDisabled)
    else standing name
  | .limitUpdated entitlement _ remaining _ =>
    if name ≠ entitlement then standing name
    else if remaining ≤ 0 then .limitReached :: standing name
    else (standing name).filter (· ≠ .limitReached)
  | .limitReset entitlement _ =>
    if name ≠ entitlement then standing name
    else (standing name).filter (· ≠ .limitReached)
  | _ => standing name

def Watched.apply (w : Watched) (event : ClientAccessEvent) : Watched :=
  let set := handleAccessEvent w.set event flagEntitlementMap
  ⟨set, fun name => standingAfter flagEntitlementMap w.standing set name event⟩

/-- What is shown as allowed has its flags on, and nothing stands against
it. -/
def DenialsKept (w : Watched) : Prop :=
  ∀ name entry, entryOf w.set name = some entry → entry.allowed = true →
    flagsEnabled flagEntitlementMap w.set name = true ∧ w.standing name = []

def runEvents (set : Option ClientAccessSet) (events : List ClientAccessEvent) : Watched :=
  events.foldl (Watched.apply flagEntitlementMap) (.start set)

/-- A flag is switched off, and then on. -/
def offAndOn (flag : String) : List ClientAccessEvent :=
  [.flagToggled flag false, .flagToggled flag true]

/-- No denial is lost on the way, and a flag that is switched off and on
again leaves the entries as they were. -/
structure HoldsDenials (set : Option ClientAccessSet) (events : List ClientAccessEvent) :
    Prop where
  kept : ∀ before, before <+: events →
    DenialsKept flagEntitlementMap (runEvents flagEntitlementMap set before)
  restored : ∀ before flag, before ++ offAndOn flag <+: events →
    flagEnabled (runEvents flagEntitlementMap set before).set flag = true →
    ∀ name, entryOf (runEvents flagEntitlementMap set (before ++ offAndOn flag)).set name =
      entryOf (runEvents flagEntitlementMap set before).set name

def SafeEvent (w : Watched) : ClientAccessEvent → Prop
  | .flagToggled flag true =>
    ∀ name entry, flag ∈ requiredFlags flagEntitlementMap name →
      entryOf w.set name = some entry → entry.reason = some .flagDisabled →
      (∀ other ∈ requiredFlags flagEntitlementMap name, other ≠ flag →
        flagEnabled w.set other = true) ∧
      ∀ reason ∈ w.standing name, reason = .flagDisabled
  | .limitReset name _ =>
    ∀ entry, entryOf w.set name = some entry →
      (∀ reason ∈ entry.reasons, reason = .limitReached) →
      flagsEnabled flagEntitlementMap w.set name = true
  | _ => True

/-- A flag that is switched off and on again is required only by
entitlements with the plain entry of an allowed one. -/
def Restorable (set : Option ClientAccessSet) (events : List ClientAccessEvent) : Prop :=
  ∀ before flag, before ++ offAndOn flag <+: events →
    flagEnabled (runEvents flagEntitlementMap set before).set flag = true →
    ∀ name, flag ∈ requiredFlags flagEntitlementMap name →
      entryOf (runEvents flagEntitlementMap set before).set name = some .plain

end Events

end Vertz.Spec

/-!
## Which events keep denials

`Tracked` is the invariant: what is allowed has no reasons, and an entry
that does not name a disabled flag names every reason that stands against
its entitlement. `denialsKept_apply_iff` says for one event when denials
are kept.

* `holdsDenials_iff`: when a sequence of events keeps them.
* `planned_entitlement_allowed`: an entitlement that lacks a plan becomes
  allowed when its flag is switched off and on.
-/

namespace Vertz.Proofs

open Vertz.Lib Vertz.Ui.Auth Vertz.Spec
open Vertz.Server.Auth (DenialReason)
open List

/-! ## One entry -/

/-- The entry of an entitlement that requires the flag. -/
def toggled (flag : String) (enabled : Bool) (entry : Option CheckData) : Option CheckData :=
  if !enabled then some (.disabledBy flag)
  else entry.map fun existing =>
    if existing.reason = some .flagDisabled then .plain else existing

theorem get?_toggleEntry (flag : String) (enabled : Bool) (entitlements : Record CheckData)
    (e : String × List String) (name : String) :
    (toggleEntry flag enabled entitlements e).get? name =
      if e.1 = name ∧ flag ∈ e.2 then toggled flag enabled (entitlements.get? name)
      else entitlements.get? name := by
  by_cases hflag : flag ∈ e.2
  case neg => simp [toggleEntry, hflag]
  case pos =>
    by_cases hname : e.1 = name
    case pos =>
      subst hname
      cases enabled with
      | false => simp [toggleEntry, toggled, hflag]
      | true =>
        cases hget : entitlements.get? e.1 with
        | none => simp [toggleEntry, toggled, hflag, hget]
        | some existing =>
          by_cases hreason : existing.reason = some .flagDisabled <;>
            simp [toggleEntry, toggled, hflag, hget, hreason]
    case neg =>
      have hne : ∀ entry, (entitlements.insert e.1 entry).get? name = entitlements.get? name := by
        intro entry
        rw [Record.get?_insert, if_neg hname]
      cases enabled with
      | false => simp [toggleEntry, hflag, hname, hne]
      | true =>
        cases hget : entitlements.get? e.1 with
        | none => simp [toggleEntry, hflag, hname, hget]
        | some existing =>
          by_cases hreason : existing.reason = some .flagDisabled <;>
            simp [toggleEntry, hflag, hname, hget, hreason, hne]

theorem get?_toggleEntries (flag : String) (enabled : Bool) {es : List (String × List String)}
    (hnodup : (es.map Prod.fst).Nodup) (entitlements : Record CheckData) (name : String) :
    (es.foldl (toggleEntry flag enabled) entitlements).get? name =
      if flag ∈ (Record.lookup name es).getD [] then
        toggled flag enabled (entitlements.get? name)
      else entitlements.get? name := by
  induction es generalizing entitlements with
  | nil => rfl
  | cons e es ih =>
    rw [map_cons, nodup_cons] at hnodup
    rw [foldl_cons, ih hnodup.2, get?_toggleEntry]
    by_cases hname : e.1 = name
    case neg => simp [Record.lookup, hname]
    case pos =>
      -- the entitlement is not visited again
      have hrest : Record.lookup name es = none := by
        rw [← Option.not_isSome_iff_eq_none, Record.lookup_isSome_iff, ← hname]
        exact hnodup.1
      simp [Record.lookup, hname, hrest]

section Events

variable {required : Option (Record (List String))} {w : Watched} {set : Option ClientAccessSet}

theorem entryOf_updateEntry (current : ClientAccessSet) (entitlement : String)
    (update : CheckData → CheckData) (name : String) :
    entryOf (some (updateEntry current entitlement update)) name =
      (entryOf (some current) name).map fun entry =>
        if name = entitlement then update entry else entry := by
  show (updateEntry current entitlement update).entitlements.get? name =
    (current.entitlements.get? name).map _
  cases hget : current.entitlements.get? entitlement with
  | none =>
    have hsame : updateEntry current entitlement update = current := by
      simp only [updateEntry, hget]
    rw [hsame]
    by_cases hname : name = entitlement
    · rw [hname, hget]
      rfl
    · simp [hname]
  | some existing =>
    have hset : (updateEntry current entitlement update).entitlements =
        current.entitlements.insert entitlement (update existing) := by
      simp only [updateEntry, hget]
    rw [hset, Record.get?_insert]
    by_cases hname : name = entitlement
    · simp [hname, hget]
    · simp [hname, Ne.symm hname]

theorem flagEnabled_updateEntry (current : ClientAccessSet) (entitlement : String)
    (update : CheckData → CheckData) :
    flagEnabled (some (updateEntry current entitlement update)) = flagEnabled (some current) := by
  funext flag
  cases hget : current.entitlements.get? entitlement <;>
    simp only [flagEnabled, updateEntry, hget, Option.bind_some]

theorem entryOf_flagToggled (flag : String) (enabled : Bool) (hset : set.isSome) (name : String) :
    entryOf (handleAccessEvent set (.flagToggled flag enabled) required) name =
      if flag ∈ requiredFlags required name then toggled flag enabled (entryOf set name)
      else entryOf set name := by
  obtain ⟨current, rfl⟩ := Option.isSome_iff_exists.mp hset
  cases required with
  | none => rfl
  | some map => exact get?_toggleEntries flag enabled map.nodup current.entitlements name

theorem flagEnabled_flagToggled (flag : String) (enabled : Bool) (hset : set.isSome)
    (other : String) :
    flagEnabled (handleAccessEvent set (.flagToggled flag enabled) required) other =
      if other = flag then enabled else flagEnabled set other := by
  obtain ⟨current, rfl⟩ := Option.isSome_iff_exists.mp hset
  show ((current.flags.insert flag enabled).get? other == some true) = _
  rw [Record.get?_insert]
  by_cases hother : other = flag
  · rw [if_pos hother.symm, if_pos hother]
    cases enabled <;> rfl
  · rw [if_neg (Ne.symm hother), if_neg hother]
    rfl

theorem flagsEnabled_congr {set' : Option ClientAccessSet} {name : String}
    (h : ∀ flag ∈ requiredFlags required name, flagEnabled set' flag = flagEnabled set flag) :
    flagsEnabled required set' name = flagsEnabled required set name := by
  rw [Bool.eq_iff_iff]
  simp only [flagsEnabled, all_eq_true]
  exact forall₂_congr fun flag hflag => by rw [h flag hflag]

theorem flagsEnabled_eq_true {name : String} : flagsEnabled required set name = true ↔
    ∀ flag ∈ requiredFlags required name, flagEnabled set flag = true := by
  rw [flagsEnabled, all_eq_true]

/-! ## One event -/

/-- What is allowed has no reasons, and an entry that names no disabled
flag names all that stands against its entitlement. -/
structure Tracked (required : Option (Record (List String))) (w : Watched) : Prop where
  kept : DenialsKept required w
  allowed : ∀ name entry, entryOf w.set name = some entry → entry.allowed = true →
    entry.reasons = []
  named : ∀ name entry, entryOf w.set name = some entry → .flagDisabled ∉ entry.reasons →
    ∀ reason ∈ w.standing name, reason ∈ entry.reasons

/-- What `Tracked` says of one entry. -/
structure TrackedEntry (enabled : Bool) (standing : List DenialReason) (entry : CheckData) :
    Prop where
  kept : entry.allowed = true → enabled = true ∧ standing = []
  allowed : entry.allowed = true → entry.reasons = []
  named : .flagDisabled ∉ entry.reasons → ∀ reason ∈ standing, reason ∈ entry.reasons

theorem tracked_iff : Tracked required w ↔ ∀ name entry, entryOf w.set name = some entry →
    TrackedEntry (flagsEnabled required w.set name) (w.standing name) entry :=
  ⟨fun h name entry hentry => ⟨h.kept name entry hentry, h.allowed name entry hentry,
      h.named name entry hentry⟩,
    fun h => ⟨fun name entry hentry => (h name entry hentry).kept,
      fun name entry hentry => (h name entry hentry).allowed,
      fun name entry hentry => (h name entry hentry).named⟩⟩

namespace TrackedEntry

variable {enabled : Bool} {standing : List DenialReason} {entry : CheckData}

theorem disabledBy (flag : String) (enabled : Bool) (standing : List DenialReason) :
    TrackedEntry enabled standing (.disabledBy flag) where
  kept := fun h => Bool.noConfusion h
  allowed := fun h => Bool.noConfusion h
  named := fun h => absurd (mem_singleton_self _) h

theorem plain : TrackedEntry true [] .plain where
  kept := fun _ => ⟨rfl, rfl⟩
  allowed := fun _ => rfl
  named := fun _ _ h => nomatch h

/-- Flags that are switched on take a reason away. -/
theorem enable (h : TrackedEntry enabled standing entry) {enabled' : Bool}
    (hle : enabled = true → enabled' = true) :
    TrackedEntry enabled' (if enabled' then standing.filter (· ≠ .flagDisabled) else standing)
      entry := by
  have hsub : ∀ reason,
      reason ∈ (if enabled' then standing.filter (· ≠ .flagDisabled) else standing) →
        reason ∈ standing := by
    intro reason hreason
    split at hreason
    · exact mem_of_mem_filter hreason
    · exact hreason
  constructor
  case kept =>
    intro hallowed
    obtain ⟨henabled, hnone⟩ := h.kept hallowed
    exact ⟨hle henabled, by rw [hnone]; simp⟩
  case allowed => exact h.allowed
  case named =>
    intro hflag reason hreason
    exact h.named hflag reason (hsub reason hreason)

theorem limitUpdated (h : TrackedEntry enabled standing entry) (consumed remaining max : ℚ) :
    TrackedEntry enabled
      (if remaining ≤ 0 then .limitReached :: standing
        else standing.filter (· ≠ .limitReached))
      (entry.limitUpdated consumed remaining max) := by
  by_cases hremaining : remaining ≤ 0
  case pos =>
    have hreasons : (entry.limitUpdated consumed remaining max).reasons =
        if .limitReached ∈ entry.reasons then entry.reasons
        else entry.reasons ++ [.limitReached] := by
      simp only [CheckData.limitUpdated, if_pos hremaining]
    have hallowed : (entry.limitUpdated consumed remaining max).allowed = false := by
      simp only [CheckData.limitUpdated, if_pos hremaining]
    have hmem : ∀ reason, reason ∈ (entry.limitUpdated consumed remaining max).reasons ↔
        reason ∈ entry.reasons ∨ reason = .limitReached := by
      intro reason
      rw [hreasons]
      split
      case isTrue hreached =>
        exact ⟨Or.inl, fun h => h.elim id fun heq => heq ▸ hreached⟩
      case isFalse => rw [mem_append, mem_singleton]
    rw [if_pos hremaining]
    constructor
    case kept => simp [hallowed]
    case allowed => simp [hallowed]
    case named =>
      intro hflag reason hreason
      rw [hmem]
      rcases mem_cons.mp hreason with heq | hreason
      · exact .inr heq
      · exact .inl (h.named (fun hin => hflag ((hmem _).mpr (.inl hin))) reason hreason)
  case neg =>
    rw [CheckData.limitUpdated, if_neg hremaining, if_neg hremaining]
    constructor
    case kept =>
      intro hallowed
      obtain ⟨henabled, hnone⟩ := h.kept hallowed
      exact ⟨henabled, by rw [hnone]; rfl⟩
    case allowed => exact h.allowed
    case named =>
      intro hflag reason hreason
      exact h.named hflag reason (mem_of_mem_filter hreason)

theorem allowed_limitReset (h : TrackedEntry enabled standing entry) (max : ℚ) :
    (entry.limitReset max).allowed = true ↔ ∀ reason ∈ entry.reasons, reason = .limitReached := by
  have hempty : (entry.reasons.filter (· ≠ .limitReached)).isEmpty = true ↔
      ∀ reason ∈ entry.reasons, reason = .limitReached := by
    rw [List.isEmpty_iff, List.filter_eq_nil_iff]
    simp
  simp only [CheckData.limitReset]
  constructor
  · intro hallowed
    split at hallowed
    case isTrue honly => simpa using (Bool.and_eq_true_iff.mp honly).2
    case isFalse =>
      rcases Bool.or_eq_true_iff.mp hallowed with hallowed | hfilter
      · rw [h.allowed hallowed]
        simp
      · exact hempty.mp hfilter
  · intro hall
    rw [hempty.mpr hall]
    simp

theorem limitReset (h : TrackedEntry enabled standing entry) (max : ℚ)
    (hsafe : (∀ reason ∈ entry.reasons, reason = .limitReached) → enabled = true) :
    TrackedEntry enabled (standing.filter (· ≠ .limitReached)) (entry.limitReset max) := by
  have hreasons : (entry.limitReset max).reasons = entry.reasons.filter (· ≠ .limitReached) := rfl
  have hnone : (∀ reason ∈ entry.reasons, reason = .limitReached) →
      entry.reasons.filter (· ≠ .limitReached) = [] := by
    intro hall
    rw [filter_eq_nil_iff]
    simpa using hall
  constructor
  case kept =>
    intro hallowed
    have hall := (h.allowed_limitReset max).mp hallowed
    have hflag : .flagDisabled ∉ entry.reasons := fun hin => nomatch hall _ hin
    refine ⟨hsafe hall, ?_⟩
    rw [filter_eq_nil_iff]
    intro reason hreason
    simp [hall reason (h.named hflag reason hreason)]
  case allowed =>
    intro hallowed
    rw [hreasons, hnone ((h.allowed_limitReset max).mp hallowed)]
  case named =>
    intro hflag reason hreason
    obtain ⟨hin, hne⟩ := mem_filter.mp hreason
    rw [hreasons, mem_filter]
    refine ⟨h.named (fun hin' => hflag ?_) reason hin, hne⟩
    rw [hreasons, mem_filter]
    exact ⟨hin', by decide⟩

end TrackedEntry

theorem tracked_start (h : DenialsKept required (.start set)) : Tracked required (.start set) := by
  have hstanding : ∀ name entry, entryOf set name = some entry →
      (Watched.start set).standing name = entry.reasons := by
    intro name entry hentry
    simp [Watched.start, hentry]
  refine ⟨h, ?_, ?_⟩
  · intro name entry hentry hallowed
    rw [← hstanding name entry hentry]
    exact (h name entry hentry hallowed).2
  · intro name entry hentry _ reason hreason
    rwa [hstanding name entry hentry] at hreason

theorem apply_of_none (hset : w.set = none) (event : ClientAccessEvent) (name : String) :
    entryOf (w.apply required event).set name = none := by
  show entryOf (handleAccessEvent w.set event required) name = none
  rw [hset]
  rfl

theorem flagsEnabled_of_notMem {flag name : String} (enabled : Bool) (hset : set.isSome)
    (hflag : flag ∉ requiredFlags required name) :
    flagsEnabled required (handleAccessEvent set (.flagToggled flag enabled) required) name =
      flagsEnabled required set name := by
  refine flagsEnabled_congr fun other hother => ?_
  have hne : other ≠ flag := fun heq => hflag (heq ▸ hother)
  rw [flagEnabled_flagToggled flag enabled hset, if_neg hne]

theorem flagsEnabled_of_on {flag name : String} (hset : set.isSome) :
    flagsEnabled required (handleAccessEvent set (.flagToggled flag true) required) name = true ↔
      ∀ other ∈ requiredFlags required name, other ≠ flag → flagEnabled set other = true := by
  rw [flagsEnabled_eq_true]
  refine forall₂_congr fun other _ => ?_
  rw [flagEnabled_flagToggled flag true hset]
  by_cases hother : other = flag <;> simp [hother]

theorem tracked_off (h : Tracked required w) (flag : String) (hset : w.set.isSome) :
    Tracked required (w.apply required (.flagToggled flag false)) := by
  refine tracked_iff.mpr fun name entry hentry => ?_
  change entryOf (handleAccessEvent w.set (.flagToggled flag false) required) name = _ at hentry
  show TrackedEntry (flagsEnabled required
    (handleAccessEvent w.set (.flagToggled flag false) required) name)
    (standingAfter required w.standing _ name (.flagToggled flag false)) entry
  rw [entryOf_flagToggled flag false hset] at hentry
  by_cases hflag : flag ∈ requiredFlags required name
  case pos =>
    rw [if_pos hflag] at hentry
    rw [← Option.some.inj hentry]
    exact .disabledBy flag _ _
  case neg =>
    rw [if_neg hflag] at hentry
    rw [flagsEnabled_of_notMem false hset hflag, standingAfter, if_pos hflag]
    exact tracked_iff.mp h name entry hentry

theorem tracked_on (h : Tracked required w) (flag : String) (hset : w.set.isSome)
    (hsafe : SafeEvent required w (.flagToggled flag true)) :
    Tracked required (w.apply required (.flagToggled flag true)) := by
  refine tracked_iff.mpr fun name entry hentry => ?_
  change entryOf (handleAccessEvent w.set (.flagToggled flag true) required) name = _ at hentry
  show TrackedEntry (flagsEnabled required
    (handleAccessEvent w.set (.flagToggled flag true) required) name)
    (standingAfter required w.standing
      (handleAccessEvent w.set (.flagToggled flag true) required) name (.flagToggled flag true))
    entry
  rw [entryOf_flagToggled flag true hset] at hentry
  by_cases hflag : flag ∈ requiredFlags required name
  case neg =>
    rw [if_neg hflag] at hentry
    rw [flagsEnabled_of_notMem true hset hflag, standingAfter, if_pos hflag]
    exact tracked_iff.mp h name entry hentry
  case pos =>
    rw [if_pos hflag, toggled] at hentry
    obtain ⟨existing, hexisting, hentry⟩ := Option.map_eq_some_iff.mp hentry
    rw [standingAfter, if_neg (not_not.mpr hflag)]
    by_cases hreason : existing.reason = some .flagDisabled
    case pos =>
      obtain ⟨hothers, hstanding⟩ := hsafe name existing hflag hexisting hreason
      have hnone : (w.standing name).filter (· ≠ .flagDisabled) = [] := by
        rw [filter_eq_nil_iff]
        simpa using hstanding
      rw [if_pos hreason] at hentry
      rw [(flagsEnabled_of_on hset).mpr hothers, ← hentry]
      simp only [Bool.not_true, Bool.false_eq_true, if_false, if_true, hnone]
      exact .plain
    case neg =>
      rw [if_neg hreason] at hentry
      rw [← hentry]
      refine (tracked_iff.mp h name existing hexisting).enable fun henabled => ?_
      exact (flagsEnabled_of_on hset).mpr fun other hother _ =>
        flagsEnabled_eq_true.mp henabled other hother

/-- An event that writes the entry of one entitlement and no flag. -/
theorem tracked_update (h : Tracked required w) {current : ClientAccessSet}
    (hset : w.set = some current) {event : ClientAccessEvent} {entitlement : String}
    {update : CheckData → CheckData} {change : List DenialReason → List DenialReason}
    (hevent : handleAccessEvent w.set event required =
      some (updateEntry current entitlement update))
    (hstanding : ∀ name, standingAfter required w.standing
      (handleAccessEvent w.set event required) name event =
        if name ≠ entitlement then w.standing name else change (w.standing name))
    (hentries : ∀ entry, entryOf w.set entitlement = some entry →
      TrackedEntry (flagsEnabled required w.set entitlement) (change (w.standing entitlement))
        (update entry)) :
    Tracked required (w.apply required event) := by
  refine tracked_iff.mpr fun name entry hentry => ?_
  change entryOf (handleAccessEvent w.set event required) name = _ at hentry
  show TrackedEntry (flagsEnabled required (handleAccessEvent w.set event required) name)
    (standingAfter required w.standing (handleAccessEvent w.set event required) name event) entry
  have hflags : flagsEnabled required (handleAccessEvent w.set event required) name =
      flagsEnabled required w.set name := by
    refine flagsEnabled_congr fun flag _ => ?_
    rw [hevent, flagEnabled_updateEntry, hset]
  rw [hevent, entryOf_updateEntry, ← hset] at hentry
  obtain ⟨existing, hexisting, rfl⟩ := Option.map_eq_some_iff.mp hentry
  rw [hflags, hstanding]
  by_cases hname : name = entitlement
  · subst hname
    rw [if_neg (not_not.mpr rfl), if_pos rfl]
    exact hentries existing hexisting
  · rw [if_pos hname, if_neg hname]
    exact tracked_iff.mp h name existing hexisting

theorem tracked_apply (h : Tracked required w) {event : ClientAccessEvent}
    (hsafe : SafeEvent required w event) : Tracked required (w.apply required event) := by
  cases hset : w.set with
  | none =>
    refine tracked_iff.mpr fun name entry hentry => ?_
    rw [apply_of_none hset] at hentry
    cases hentry
  | some current =>
    have hsome : w.set.isSome := by rw [hset]; rfl
    cases event with
    | flagToggled flag enabled =>
      cases enabled with
      | false => exact tracked_off h flag hsome
      | true => exact tracked_on h flag hsome hsafe
    | limitUpdated entitlement consumed remaining max =>
      refine @tracked_update _ _ h _ hset _ entitlement
        (fun entry => entry.limitUpdated consumed remaining max)
        (fun standing => if remaining ≤ 0 then .limitReached :: standing
          else standing.filter (· ≠ .limitReached))
        (by rw [hset]; rfl) (fun _ => rfl) ?_
      intro entry hentry
      exact (tracked_iff.mp h entitlement entry hentry).limitUpdated consumed remaining max
    | limitReset entitlement max =>
      refine @tracked_update _ _ h _ hset _ entitlement (fun entry => entry.limitReset max)
        (fun standing => standing.filter (· ≠ .limitReached))
        (by rw [hset]; rfl) (fun _ => rfl) ?_
      intro entry hentry
      exact (tracked_iff.mp h entitlement entry hentry).limitReset max (hsafe entry hentry)
    | roleChanged | planChanged | planAssigned _ | addonAttached _ | addonDetached _ =>
      -- neither an entry nor a flag is written
      refine tracked_iff.mpr fun name entry hentry => ?_
      have hsame := tracked_iff.mp h name entry
      rw [hset] at hsame
      simp only [Watched.apply, hset] at hentry ⊢
      exact hsame hentry

theorem safe_of_kept (h : Tracked required w) {event : ClientAccessEvent}
    (hkept : DenialsKept required (w.apply required event)) : SafeEvent required w event := by
  cases event with
  | flagToggled flag enabled =>
    cases enabled with
    | false => trivial
    | true =>
      intro name entry hflag hentry hreason
      have hset : w.set.isSome := by
        cases hset : w.set with
        | none => rw [hset] at hentry; cases hentry
        | some current => rfl
      have hafter : entryOf (w.apply required (.flagToggled flag true)).set name =
          some .plain := by
        refine (entryOf_flagToggled flag true hset name).trans ?_
        simp [if_pos hflag, toggled, hentry, hreason]
      obtain ⟨hflags, hstanding⟩ := hkept name .plain hafter rfl
      have hothers := (flagsEnabled_of_on hset).mp hflags
      refine ⟨hothers, ?_⟩
      have hfilter : standingAfter required w.standing
          (handleAccessEvent w.set (.flagToggled flag true) required) name
          (.flagToggled flag true) = [] := hstanding
      rw [standingAfter, if_neg (not_not.mpr hflag),
        (flagsEnabled_of_on hset).mpr hothers] at hfilter
      simpa using hfilter
  | limitReset entitlement max =>
    intro entry hentry hall
    cases hset : w.set with
    | none => rw [hset] at hentry; cases hentry
    | some current =>
      have hafter : entryOf (w.apply required (.limitReset entitlement max)).set entitlement =
          some (entry.limitReset max) := by
        show entryOf (handleAccessEvent w.set (.limitReset entitlement max) required) _ = _
        rw [hset] at hentry ⊢
        refine (entryOf_updateEntry current entitlement _ entitlement).trans ?_
        rw [hentry, Option.map_some, if_pos rfl]
      have htracked := tracked_iff.mp h entitlement entry hentry
      obtain ⟨hflags, _⟩ :=
        hkept entitlement _ hafter ((htracked.allowed_limitReset max).mpr hall)
      rw [← hflags]
      refine flagsEnabled_congr fun flag _ => ?_
      show _ = flagEnabled (handleAccessEvent w.set (.limitReset entitlement max) required) flag
      rw [hset]
      exact (congrFun (flagEnabled_updateEntry current entitlement _) flag).symm
  | _ => trivial

theorem denialsKept_apply_iff (h : Tracked required w) {event : ClientAccessEvent} :
    DenialsKept required (w.apply required event) ↔ SafeEvent required w event :=
  ⟨safe_of_kept h, fun hsafe => (tracked_apply h hsafe).kept⟩

/-! ## Off and on -/

theorem entryOf_offAndOn (flag : String) (hset : w.set.isSome) (name : String) :
    entryOf ((offAndOn flag).foldl (Watched.apply required) w).set name =
      if flag ∈ requiredFlags required name then some .plain else entryOf w.set name := by
  have hset' : (handleAccessEvent w.set (.flagToggled flag false) required).isSome := by
    obtain ⟨current, hcurrent⟩ := Option.isSome_iff_exists.mp hset
    rw [hcurrent]
    rfl
  refine (entryOf_flagToggled flag true hset' name).trans ?_
  rw [entryOf_flagToggled flag false hset]
  by_cases hflag : flag ∈ requiredFlags required name
  · simp only [if_pos hflag]
    rfl
  · simp only [if_neg hflag]

theorem isSome_of_flagEnabled {flag : String} (h : flagEnabled set flag = true) : set.isSome := by
  cases set with
  | none => cases h
  | some _ => rfl

/-- Denials are kept, and flags switched off and on leave the entries as
they were, exactly when the initial set denies what it has reasons to
deny, every event is safe, and a flag that is switched off and on is
required by plainly allowed entitlements only. -/
theorem holdsDenials_iff (required : Option (Record (List String)))
    (set : Option ClientAccessSet) (events : List ClientAccessEvent) :
    HoldsDenials required set events ↔
      DenialsKept required (.start set) ∧
        Along (Watched.apply required) (SafeEvent required) (.start set) events ∧
        Restorable required set events := by
  have hkept : (∀ before, before <+: events →
      DenialsKept required (runEvents required set before)) ↔
      DenialsKept required (.start set) ∧
        Along (Watched.apply required) (SafeEvent required) (.start set) events := by
    refine forall_prefix_iff.trans (and_congr_right fun hstart => ?_)
    exact along_iff (fun _ _ h => denialsKept_apply_iff h) (fun _ _ h => tracked_apply h) events
      (tracked_start hstart)
  have hrestored : (∀ before flag, before ++ offAndOn flag <+: events →
      flagEnabled (runEvents required set before).set flag = true →
      ∀ name, entryOf (runEvents required set (before ++ offAndOn flag)).set name =
        entryOf (runEvents required set before).set name) ↔ Restorable required set events := by
    refine forall₄_congr fun before flag _ henabled => forall_congr' fun name => ?_
    rw [runEvents, foldl_append, ← runEvents,
      entryOf_offAndOn flag (isSome_of_flagEnabled henabled)]
    by_cases hflag : flag ∈ requiredFlags required name
    · simp [hflag, eq_comm]
    · simp [hflag]
  rw [← and_assoc, ← hkept, ← hrestored]
  exact ⟨fun h => ⟨h.kept, h.restored⟩, fun h => ⟨h.1, h.2⟩⟩

end Events

/-! ## A plan that is lacking -/

/-- Exports need a plan that the user does not have, and a flag. -/
def exportSet : ClientAccessSet where
  entitlements := .ofList [("project:export", ⟨false, [.planRequired], some .planRequired, none⟩)]
  flags := .ofList [("export-v2", true)]
  plan := none
  plans := .empty
  computedAt := ""

theorem planned_entitlement_allowed :
    ¬ HoldsDenials (some (.ofList [("project:export", ["export-v2"])])) (some exportSet)
      (offAndOn "export-v2") := by
  intro h
  have hentry : entryOf (runEvents (some (.ofList [("project:export", ["export-v2"])]))
      (some exportSet) (offAndOn "export-v2")).set "project:export" = some .plain := by
    decide
  obtain ⟨_, hstanding⟩ := h.kept _ (prefix_refl _) "project:export" .plain hentry rfl
  revert hstanding
  decide

end Vertz.Proofs
