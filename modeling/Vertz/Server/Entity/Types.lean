import Vertz.Db.Schema

/-!
# `Vertz.Server.Entity.Types`: contexts, access rules and entities

The data the entity layer works on: who makes the request, the access
rules of the operations, the tenant chain of an indirectly scoped entity
and the entity definition itself.
-/

namespace Vertz.Server.Entity

open Vertz.Lib
open Vertz.Db

/-- Who makes the request. -/
structure BaseContext where
  userId : Option String
  tenantId : Option String
  tenantLevel : Option String
  roles : List String

def BaseContext.authenticated (ctx : BaseContext) : Bool := ctx.userId.isSome

def BaseContext.role (ctx : BaseContext) (rolesToCheck : List String) : Bool :=
  rolesToCheck.any ctx.roles.contains

/-- An access rule: a descriptor, or a callback over the context and the
row. -/
inductive AccessRule where
  | isPublic
  | authenticated
  | role (roles : List String)
  | entitlement (entitlement : String)
  | where_ (conditions : Record Js)
  | all (rules : List AccessRule)
  | any (rules : List AccessRule)
  | fva (maxAge : ℚ)
  | callback (allow : BaseContext → Record Js → Bool)

/-- What an entity declares for an operation: `false`, or a rule. -/
inductive OperationRule where
  | disabled
  | rule (r : AccessRule)

/-- The rules of an entity, by operation. -/
abbrev AccessRules := Record OperationRule

/-- One hop from an entity towards the tenant root. -/
structure TenantChainHop where
  tableName : String
  foreignKey : String
  targetColumn : String
  deriving DecidableEq, Repr

/-- The hops from an indirectly scoped entity, of which there is at least
one, and the tenant column of the last table. -/
structure TenantChain where
  firstHop : TenantChainHop
  moreHops : List TenantChainHop
  tenantColumn : String
  deriving DecidableEq, Repr

def TenantChain.hops (chain : TenantChain) : List TenantChainHop := chain.firstHop :: chain.moreHops

/-- One level of a tenant hierarchy. -/
structure TenantLevel where
  key : String
  tableName : String
  parentFk : Option String
  parentKey : Option String
  depth : ℕ

structure EntityDefinition where
  name : String
  table : TableDef
  access : AccessRules
  tenantScoped : Bool
  tenantColumn : Option String
  beforeCreate : Option (Record Js → BaseContext → Record Js)
  beforeUpdate : Option (Record Js → BaseContext → Record Js)

end Vertz.Server.Entity
