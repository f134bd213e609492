import Vertz.Server.Entity.Types

/-!
# `Vertz.Server.Entity.AccessEnforcer`: evaluating and pushing down access rules

A rule is evaluated on a row in memory (`evaluateRule`). A query can
carry part of it instead: `extractWhereConditions` collects the `where`
conditions a rule conjoins, and `evaluateRuleSkipWhere` evaluates what is
left.
-/

namespace Vertz.Server.Entity

open Vertz.Lib

structure EnforceAccessOptions where
  /-- Evaluates an entitlement. -/
  can : Option (String → Bool)
  /-- Seconds since the last MFA verification. -/
  fvaAge : Option ℚ

def deny (operation : String) : Except String Unit :=
  .error ("Access denied for operation \"" ++ operation ++ "\"")

def allowIf (operation : String) (allowed : Bool) : Except String Unit :=
  if allowed then .ok () else deny operation

/-! ### User markers -/

def isUserMarker : Js → Bool
  | .obj entries => (Record.lookup "__marker" entries).isSome
  | _ => false

/-- A `string | null`. -/
def nullable : Option String → Js
  | none => .null
  | some s => .str s

def resolveMarker (marker : Js) (ctx : BaseContext) : Js :=
  match marker with
  | .obj entries =>
    match Record.lookup "__marker" entries with
    | some (.str "user.id") => nullable ctx.userId
    | some (.str "user.tenantId") => nullable ctx.tenantId
    | _ => .undefined
  | _ => .undefined

def resolveCondition (ctx : BaseContext) (expected : Js) : Js :=
  if isUserMarker expected then resolveMarker expected ctx else expected

/-- `row[key]`. -/
def rowField (row : Record Js) (key : String) : Js := (row.get? key).getD .undefined

/-! ### Evaluation -/

/-- The loop over the conditions of a `where` rule. -/
def evaluateConditions (operation : String) (ctx : BaseContext) (row : Record Js) :
    List (String × Js) → Except String Unit
  | [] => .ok ()
  | (key, expected) :: rest =>
    if !Js.strictEq (rowField row key) (resolveCondition ctx expected) then deny operation
    else evaluateConditions operation ctx row rest

section

variable (operation : String) (ctx : BaseContext) (row : Record Js)
  (options : EnforceAccessOptions)

mutual

def evaluateRule : AccessRule → Except String Unit
  | .isPublic => .ok ()
  | .authenticated => allowIf operation ctx.authenticated
  | .role roles => allowIf operation (ctx.role roles)
  | .entitlement entitlement =>
    match options.can with
    | none => deny operation
    | some can => allowIf operation (can entitlement)
  | .where_ conditions => evaluateConditions operation ctx row conditions.entries
  | .all rules => evaluateAll rules
  | .any rules => evaluateAny rules
  | .fva maxAge =>
    match options.fvaAge with
    | none => deny operation
    | some age => allowIf operation (age ≤ maxAge)
  | .callback allow => allowIf operation (allow ctx row)

def evaluateAll : List AccessRule → Except String Unit
  | [] => .ok ()
  | sub :: rest =>
    match evaluateRule sub with
    | .error e => .error e
    | .ok _ => evaluateAll rest

def evaluateAny : List AccessRule → Except String Unit
  | [] => deny operation
  | sub :: rest =>
    match evaluateRule sub with
    | .ok _ => .ok ()
    | .error _ => evaluateAny rest

end

mutual

/-- Evaluation when the `where` conditions are part of the query. The
conditions under `any` never are, so they are evaluated. -/
def evaluateRuleSkipWhere : AccessRule → Except String Unit
  | .where_ _ => .ok ()
  | .all rules => evaluateAllSkipWhere rules
  | .any rules => evaluateAny operation ctx row options rules
  | rule => evaluateRule operation ctx row options rule

def evaluateAllSkipWhere : List AccessRule → Except String Unit
  | [] => .ok ()
  | sub :: rest =>
    match evaluateRuleSkipWhere sub with
    | .error e => .error e
    | .ok _ => evaluateAllSkipWhere rest

end

end

/-! ### Extraction -/

mutual

/-- The conditions a rule conjoins, merged into one object; `none` when
it has none. -/
def extractFromDescriptor (ctx : BaseContext) : AccessRule → Option (Record Js)
  | .where_ conditions => some (conditions.mapValues (resolveCondition ctx))
  | .all rules => extractAll ctx none rules
  | _ => none

def extractAll (ctx : BaseContext) (merged : Option (Record Js)) :
    List AccessRule → Option (Record Js)
  | [] => merged
  | sub :: rest =>
    match extractFromDescriptor ctx sub with
    | none => extractAll ctx merged rest
    | some extracted => extractAll ctx (some ((merged.getD .empty).spread extracted)) rest

end

def extractWhereConditions (operation : String) (accessRules : AccessRules) (ctx : BaseContext) :
    Option (Record Js) :=
  match accessRules.get? operation with
  | none => none
  | some .disabled => none
  | some (.rule r) => extractFromDescriptor ctx r

/-- Whether the operation is allowed; `skipWhere` when its conditions are
part of the query. -/
def enforceAccess (operation : String) (accessRules : AccessRules) (ctx : BaseContext)
    (row : Record Js) (options : EnforceAccessOptions) (skipWhere : Bool) : Except String Unit :=
  match accessRules.get? operation with
  | none => .error ("Access denied: no access rule for operation \"" ++ operation ++ "\"")
  | some .disabled => .error ("Operation \"" ++ operation ++ "\" is disabled")
  | some (.rule r) =>
    if skipWhere then evaluateRuleSkipWhere operation ctx row options r
    else evaluateRule operation ctx row options r

end Vertz.Server.Entity
