import Mathlib.Algebra.GroupWithZero.Nat
import Vertz.Spec.Access

/-!
# `Vertz.Server.Entity.CrudPipeline`: stripping fields off records
-/

namespace Vertz.Server.Entity

open Vertz.Lib
open Vertz.Db

def hiddenKeys (table : TableDef) : List String :=
  table.columnsWhere fun m => m.annotations.contains "hidden"

/-- Strip hidden columns; only the record's own keys are looked at. -/
def stripHiddenFields (table : TableDef) (data : Record Js) : Record Js :=
  data.filter fun key => !(hiddenKeys table).contains key

end Vertz.Server.Entity

/-!
## Listing the rows of an entity

`list` over the bridge adapter. It merges the access rule's conditions,
the tenant filter and the indirect tenant filter into one where object by
spreading, key by key. It returns the rows of the table it reads; the
shaping of a response from them is left out.
-/

namespace Vertz.Server.Entity

open Vertz.Lib
open Vertz.Db
open Vertz.Db.Sql
open Vertz.Spec

/-- A resource above another in the tenant hierarchy. -/
structure Ancestor where
  type : String
  id : String
  depth : ℕ

structure CrudPipelineOptions where
  tenantChain : Option TenantChain
  /-- The ids of the rows of a table that match a where object. -/
  queryParentIds : Option (Store → String → Record Js → List Js)
  /-- The `can` of the access context made for a request. -/
  accessConfig : Option (BaseContext → String → Bool)
  /-- `closureStore.getAncestors`. -/
  closureStore : Option (String → String → List Ancestor)
  tenantLevels : Option (List TenantLevel)

structure ValidationIssue where
  path : List String
  message : String
  code : String

inductive EntityError where
  | forbidden (message : String)
  | notFound (message : String)
  | validation (issues : List ValidationIssue)
  /-- What the adapter threw. -/
  | thrown (message : String)

/-- A `string | null` that is not empty. -/
def present (s : Option String) : Option String := s.filter (· ≠ "")

def MAX_CURSOR_LENGTH : ℕ := 512

/-- `str.length`, in UTF-16 code units. -/
def jsLength (str : String) : ℕ := (str.toList.map fun c => if c.val > 0xFFFF then 2 else 1).sum

section

variable (b : Backend) (entity : EntityDefinition) (options : CrudPipelineOptions)

def EntityDefinition.tenantColumnOr (entity : EntityDefinition) : String :=
  entity.tenantColumn.getD "tenantId"

def buildAccessOptions (ctx : BaseContext) : EnforceAccessOptions :=
  match options.accessConfig, present ctx.userId with
  | some can, some _ => { can := some (can ctx), fvaAge := none }
  | _, _ => { can := none, fvaAge := none }

def resolvePkColumns (table : TableDef) : List String :=
  if table.primaryKeyColumns.isEmpty then ["id"] else table.primaryKeyColumns

/-- `tenantColumn.replace(/Id$/, '')`. -/
def stripIdSuffix (s : String) : String :=
  if ['I', 'd'].isSuffixOf s.toList then String.ofList (s.toList.take (s.toList.length - 2)) else s

/-- The level an entity's tenant column points to. -/
def targetLevel (levels : List TenantLevel) (tenantColumn : String) : Option TenantLevel :=
  (levels.find? fun l => levels.any fun child =>
      child.parentFk == some tenantColumn && child.parentKey == some l.key).orElse
    fun _ => levels.find? fun l => l.key == stripIdSuffix tenantColumn

/-- The ancestor of a deeper tenant at the entity's level. -/
def crossLevelAncestor (ctx : BaseContext) (tenantId : String) : Option String :=
  match options.closureStore, options.tenantLevels, present ctx.tenantLevel with
  | some getAncestors, some levels, some tenantLevel =>
    (targetLevel levels entity.tenantColumnOr).bind fun target =>
      (levels.find? fun l => l.key == tenantLevel).bind fun userLevel =>
        if target.depth < userLevel.depth then
          ((getAncestors tenantLevel tenantId).find? fun a =>
            a.type == target.key && decide (0 < a.depth)).map Ancestor.id
        else none
  | _, _, _ => none

/-- The tenant to filter by. -/
def resolveTenantIdForFilter (ctx : BaseContext) : Option String :=
  (present ctx.tenantId).map fun tenantId =>
    (crossLevelAncestor entity options ctx tenantId).getD tenantId

def withTenantFilter (ctx : BaseContext) (where_ : Option (Record Js)) : Option (Record Js) :=
  if !entity.tenantScoped then where_
  else if options.tenantChain.isSome then where_
  else
    some ((where_.getD .empty).insert entity.tenantColumnOr
      (nullable (resolveTenantIdForFilter entity options ctx)))

/-- The ids of a hop's table that lead to the tenant: those its last
table has for the tenant, followed back hop by hop. -/
def walkHops (query : String → Record Js → List Js) (tenantColumn tenantId : String) :
    TenantChainHop → List TenantChainHop → List Js
  | hop, [] => query hop.tableName (only tenantColumn (.str tenantId))
  | hop, nextHop :: rest =>
    let currentIds := walkHops query tenantColumn tenantId nextHop rest
    if currentIds.isEmpty then []
    else query hop.tableName (only nextHop.foreignKey (.obj [("in", .arr currentIds)]))

def resolveIndirectTenantWhere (ctx : BaseContext) (store : Store) : Option (Record Js) :=
  match options.tenantChain, options.queryParentIds with
  | some chain, some query =>
    let currentIds :=
      match present ctx.tenantId with
      | none => []
      | some tenantId =>
        walkHops (query store) chain.tenantColumn tenantId chain.firstHop chain.moreHops
    some (only chain.firstHop.foreignKey (.obj [("in", .arr currentIds)]))
  | _, _ => none

/-- `indirectWhere ? { ...where, ...indirectWhere } : where`. -/
def withIndirect (ctx : BaseContext) (store : Store) (where_ : Option (Record Js)) :
    Option (Record Js) :=
  match resolveIndirectTenantWhere options ctx store with
  | none => where_
  | some indirectWhere => some ((where_.getD .empty).spread indirectWhere)

/-! ### list -/

structure ListOptions where
  where_ : Option (Record Js)
  orderBy : Option (Record SortDir)
  limit : Option ℚ
  after : Option String

/-- The user's filter without hidden fields; an empty one is dropped. -/
def cleanWhere (rawWhere : Option (Record Js)) : Option (Record Js) :=
  (rawWhere.map (stripHiddenFields entity.table)).filter fun w => !w.entries.isEmpty

/-- The where object of `list`: access conditions, the user's filter over
them, and the tenant filters over both. -/
def listWhere (ctx : BaseContext) (rawWhere : Option (Record Js)) (store : Store) :
    Option (Record Js) :=
  let accessWhere := (extractWhereConditions "list" entity.access ctx).getD .empty
  withIndirect options ctx store
    (withTenantFilter entity options ctx
      (some (accessWhere.spread ((cleanWhere entity rawWhere).getD .empty))))

def listLimit (opts : ListOptions) : ℚ := max 0 (opts.limit.getD 20)

def listAfter (opts : ListOptions) : Option String :=
  opts.after.filter fun after => after ≠ "" && decide (jsLength after ≤ MAX_CURSOR_LENGTH)

/-- The query `list` passes to the adapter. -/
def listQuery (ctx : BaseContext) (opts : ListOptions) (store : Store) : ListQuery where
  where_ := listWhere entity options ctx opts.where_ store
  orderBy := opts.orderBy
  limit := some (listLimit opts)
  after := listAfter opts

def listAccess (ctx : BaseContext) : Except String Unit :=
  enforceAccess "list" entity.access ctx .empty (buildAccessOptions options ctx)
    (extractWhereConditions "list" entity.access ctx).isSome

def list (ctx : BaseContext) (opts : ListOptions) (store : Store) :
    Except EntityError (List SqlRow) :=
  match listAccess entity options ctx with
  | .error message => .error (.forbidden message)
  | .ok _ =>
    (adapterList b entity.table (listQuery entity options ctx opts store) store).mapError .thrown

mutual

/-- The text of a value in a template literal. -/
def jsText : Js → String
  | .undefined => "undefined"
  | .null => "null"
  | .bool b => toString b
  | .num q => toString q
  | .str s => s
  | .arr vs => ",".intercalate (jsTexts vs)
  | .obj _ => "[object Object]"

def jsTexts : List Js → List String
  | [] => []
  | v :: vs => (if v.isNullish then "" else jsText v) :: jsTexts vs

end

end

end Vertz.Server.Entity
