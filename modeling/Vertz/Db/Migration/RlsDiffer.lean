import Vertz.Server.Entity.VertzqlParser

/-!
# `Vertz.Db.Migration.RlsDiffer`: changes between two RLS snapshots

A snapshot has, for each table, whether row-level security is enabled and
its policies. `diffRlsPolicies` compares the tables of `after` with those
of `before`, policies by name, and then looks for tables that are gone.
-/

namespace Vertz.Db.Migration

open Vertz.Lib
open Vertz.Server.Entity (objectPrototypeKeys)

inductive RlsCommand where
  | all
  | select
  | insert
  | update
  | delete
  deriving DecidableEq, Repr

structure RlsPolicy where
  name : String
  for_ : RlsCommand
  using_ : String
  withCheck : Option String
  deriving DecidableEq, Repr

structure RlsTablePolicies where
  rlsEnabled : Bool
  policies : List RlsPolicy

structure RlsSnapshot where
  tables : Record RlsTablePolicies

inductive RlsDiffChangeType where
  | rlsEnabled
  | rlsDisabled
  | policyAdded
  | policyRemoved
  | policyChanged
  deriving DecidableEq, Repr

structure RlsDiffChange where
  type : RlsDiffChangeType
  table : String
  policy : Option RlsPolicy := none
  oldPolicy : Option RlsPolicy := none
  deriving DecidableEq, Repr

/-- `new Map(policies.map((p) => [p.name, p]))`. -/
def byName (policies : List RlsPolicy) : Record RlsPolicy :=
  .ofList (policies.map fun p => (p.name, p))

def removePolicies (tableName : String) (policies : List RlsPolicy) : List RlsDiffChange :=
  policies.map fun policy => { type := .policyRemoved, table := tableName, policy := some policy }

/-- Whether a policy of the same name has other content. -/
def policyDiffers (beforePolicy afterPolicy : RlsPolicy) : Bool :=
  beforePolicy.for_ != afterPolicy.for_ || beforePolicy.using_ != afterPolicy.using_ ||
    beforePolicy.withCheck != afterPolicy.withCheck

/-- The policies of a table: added, removed, changed. -/
def diffPolicies (tableName : String) (beforePolicies afterPolicies : List RlsPolicy) :
    List RlsDiffChange :=
  let beforeByName := byName beforePolicies
  let afterByName := byName afterPolicies
  (afterByName.entries.filter fun e => (beforeByName.get? e.1).isNone).map
      (fun e => { type := .policyAdded, table := tableName, policy := some e.2 }) ++
    removePolicies tableName
      ((beforeByName.entries.filter fun e => (afterByName.get? e.1).isNone).map Prod.snd) ++
    afterByName.entries.filterMap fun e =>
      match beforeByName.get? e.1 with
      | none => none
      | some beforePolicy =>
        if policyDiffers beforePolicy e.2 then
          some { type := .policyChanged, table := tableName, policy := some e.2,
                 oldPolicy := some beforePolicy }
        else none

/-- A table of `after`. -/
def diffTable (before : RlsSnapshot) (tableName : String) (afterTable : RlsTablePolicies) :
    List RlsDiffChange :=
  let beforeTable := before.tables.get? tableName
  let wasEnabled := (beforeTable.map RlsTablePolicies.rlsEnabled).getD false
  let beforePolicies := (beforeTable.map RlsTablePolicies.policies).getD []
  if wasEnabled && !afterTable.rlsEnabled then
    -- the comparison of the policies is skipped
    removePolicies tableName beforePolicies ++ [{ type := .rlsDisabled, table := tableName }]
  else
    (if !wasEnabled && afterTable.rlsEnabled then
        [{ type := .rlsEnabled, table := tableName }] else []) ++
      diffPolicies tableName beforePolicies afterTable.policies

/-- `after.tables[tableName]` is truthy; a plain object inherits some
names. -/
def hasTable (after : RlsSnapshot) (tableName : String) : Bool :=
  (after.tables.get? tableName).isSome || objectPrototypeKeys.contains tableName

/-- A table of `before`, when `after` has none of that name. -/
def diffGone (after : RlsSnapshot) (tableName : String) (beforeTable : RlsTablePolicies) :
    List RlsDiffChange :=
  if hasTable after tableName then []
  else if beforeTable.rlsEnabled then
    removePolicies tableName beforeTable.policies ++ [{ type := .rlsDisabled, table := tableName }]
  else []

def diffRlsPolicies (before after : RlsSnapshot) : List RlsDiffChange :=
  after.tables.entries.flatMap (fun e => diffTable before e.1 e.2) ++
    before.tables.entries.flatMap fun e => diffGone after e.1 e.2

end Vertz.Db.Migration
