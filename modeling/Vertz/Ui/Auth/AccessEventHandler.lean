import Vertz.Server.Auth.DefineAccess

/-!
# `Vertz.Ui.Auth.AccessEventHandler`: access events on the client

The client holds the access set that the server computed, and updates it
on the events that arrive until it fetches a new one. `handleAccessEvent`
is one such update. `flagEntitlementMap` lists the flags an entitlement
requires.

The objects of the source are records: no entitlement and no flag has the
name of a property of `Object.prototype`. The resource of an event is not
read by the handler and is left out.
-/

namespace Vertz.Ui.Auth

open Vertz.Lib
open Vertz.Server.Auth (DenialReason)

structure LimitState where
  key : Option String
  max : ℚ
  consumed : ℚ
  remaining : ℚ
  deriving DecidableEq

structure DenialDetails where
  requiredPlans : Option (List String)
  requiredRoles : Option (List String)
  disabledFlags : Option (List String)
  limit : Option LimitState
  fvaMaxAge : Option ℚ
  deriving DecidableEq

def DenialDetails.empty : DenialDetails := ⟨none, none, none, none, none⟩

/-- The entry of an entitlement. `details` is its `meta`. -/
structure CheckData where
  allowed : Bool
  reasons : List DenialReason
  reason : Option DenialReason
  details : Option DenialDetails
  deriving DecidableEq

structure ClientAccessSet where
  entitlements : Record CheckData
  flags : Record Bool
  plan : Option String
  plans : Record (Option String)
  computedAt : String

inductive ClientAccessEvent where
  | flagToggled (flag : String) (enabled : Bool)
  | limitUpdated (entitlement : String) (consumed remaining max : ℚ)
  | roleChanged
  | planChanged
  | planAssigned (planId : String)
  | addonAttached (addonId : String)
  | addonDetached (addonId : String)
  | limitReset (entitlement : String) (max : ℚ)
  deriving DecidableEq

namespace CheckData

/-- The entry written when a flag is disabled. -/
def disabledBy (flag : String) : CheckData where
  allowed := false
  reasons := [.flagDisabled]
  reason := some .flagDisabled
  details := some { DenialDetails.empty with disabledFlags := some [flag] }

/-- The entry written when a flag is enabled again. -/
def plain : CheckData := ⟨true, [], none, none⟩

def withLimit (entry : CheckData) (limit : LimitState) : CheckData :=
  { entry with details := some { entry.details.getD .empty with limit := some limit } }

/-- The entry after its limit is reset. -/
def limitReset (existingEntry : CheckData) (max : ℚ) : CheckData :=
  let reasons := existingEntry.reasons.filter (· ≠ .limitReached)
  let wasOnlyLimitBlocked := decide (0 < existingEntry.reasons.length) &&
    existingEntry.reasons.all (· = .limitReached)
  let newLimit : LimitState := ⟨none, max, 0, max⟩
  { existingEntry.withLimit newLimit with
    allowed := if wasOnlyLimitBlocked then true else existingEntry.allowed || reasons.isEmpty
    reasons := reasons
    reason := reasons.head? }

/-- The entry after an update of its limit. -/
def limitUpdated (existingEntry : CheckData) (consumed remaining max : ℚ) : CheckData :=
  let newLimit : LimitState := ⟨none, max, consumed, remaining⟩
  if remaining ≤ 0 then
    let reasons :=
      if .limitReached ∈ existingEntry.reasons then existingEntry.reasons
      else existingEntry.reasons ++ [.limitReached]
    { existingEntry.withLimit newLimit with
      allowed := false
      reasons := reasons
      reason := reasons.head? }
  else existingEntry.withLimit newLimit

end CheckData

/-- One turn of the loop over the map of required flags. -/
def toggleEntry (flag : String) (enabled : Bool) (newEntitlements : Record CheckData)
    (e : String × List String) : Record CheckData :=
  if flag ∉ e.2 then newEntitlements
  else if !enabled then newEntitlements.insert e.1 (.disabledBy flag)
  else
    match newEntitlements.get? e.1 with
    | some existing =>
      if existing.reason = some .flagDisabled then newEntitlements.insert e.1 .plain
      else newEntitlements
    | none => newEntitlements

def handleFlagToggle (current : ClientAccessSet) (flag : String) (enabled : Bool)
    (flagEntitlementMap : Option (Record (List String))) : ClientAccessSet :=
  { current with
    flags := current.flags.insert flag enabled
    entitlements :=
      match flagEntitlementMap with
      | none => current.entitlements
      | some required => required.entries.foldl (toggleEntry flag enabled) current.entitlements }

def handlePlanAssigned (current : ClientAccessSet) (planId : String) : ClientAccessSet :=
  { current with plan := some planId }

/-- Write the entry of an entitlement that has one. -/
def updateEntry (current : ClientAccessSet) (entitlement : String)
    (update : CheckData → CheckData) : ClientAccessSet :=
  match current.entitlements.get? entitlement with
  | none => current
  | some existingEntry =>
    { current with
      entitlements := current.entitlements.insert entitlement (update existingEntry) }

def handleLimitReset (current : ClientAccessSet) (entitlement : String) (max : ℚ) :
    ClientAccessSet :=
  updateEntry current entitlement fun entry => entry.limitReset max

def handleLimitUpdate (current : ClientAccessSet) (entitlement : String)
    (consumed remaining max : ℚ) : ClientAccessSet :=
  updateEntry current entitlement fun entry => entry.limitUpdated consumed remaining max

def handleAccessEvent (accessSet : Option ClientAccessSet) (event : ClientAccessEvent)
    (flagEntitlementMap : Option (Record (List String))) : Option ClientAccessSet :=
  match accessSet with
  | none => none
  | some current =>
    some <|
      match event with
      | .flagToggled flag enabled => handleFlagToggle current flag enabled flagEntitlementMap
      | .limitUpdated entitlement consumed remaining max =>
        handleLimitUpdate current entitlement consumed remaining max
      | .planAssigned planId => handlePlanAssigned current planId
      | .limitReset entitlement max => handleLimitReset current entitlement max
      -- the caller fetches a new set
      | .roleChanged | .planChanged | .addonAttached _ | .addonDetached _ => current

end Vertz.Ui.Auth
