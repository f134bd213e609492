import Vertz.Server.Entity.CrudPipeline

/-!
# `Vertz.Server.Entity.VertzqlParser`: what a request may ask for

`validateVertzQL` checks the options of a request against the entity's
table, its expose config and its relations config before they reach
`list`. It reads the keys of the `where`, `orderBy` and `select` objects
and the entries of `include`; the limits it clamps are the only thing it
changes.
-/

namespace Vertz.Server.Entity

open Vertz.Lib
open Vertz.Db
open Vertz.Db.Sql

structure VertzQLOptions where
  where_ : Option (Record Js)
  orderBy : Option (Record SortDir)
  limit : Option ℚ
  after : Option String
  select : Option (List String)
  include_ : Option (Record Js)
  /-- What was wrong with the `q=` parameter. -/
  qError : Option String

/-- The keys of the entity's expose config, as declared. -/
structure ExposeValidationConfig where
  select : Option (List String)
  allowWhere : Option (List String)
  allowOrderBy : Option (List String)

/-- The fields that the descriptors of the expose config allow. -/
structure EvaluatedExpose where
  allowedWhereFields : List String
  allowedOrderByFields : List String

structure RelationConfigObject where
  select : Option (List String)
  allowWhere : Option (List String)
  allowOrderBy : Option (List String)
  maxLimit : Option ℚ

/-- What an entity exposes of a relation. -/
inductive RelationConfig where
  | enabled
  | disabled
  | config (c : RelationConfigObject)
  /-- What `relationsConfig[relation]` finds on the object's prototype. -/
  | inherited

def extractAllowKeys (allow : Option (List String)) : List String := allow.getD []

def getHiddenColumns (table : TableDef) : List String :=
  table.columnsWhere fun m => m.annotations.contains "hidden"

/-- The keys that every plain object inherits. -/
def objectPrototypeKeys : List String :=
  ["constructor", "__defineGetter__", "__defineSetter__", "hasOwnProperty", "__lookupGetter__",
    "__lookupSetter__", "isPrototypeOf", "propertyIsEnumerable", "toString", "valueOf",
    "__proto__", "toLocaleString"]

/-- `relationsConfig[relation]`. -/
def relationConfigOf (relationsConfig : Record RelationConfig) (relation : String) :
    Option RelationConfig :=
  (relationsConfig.get? relation).orElse fun _ =>
    if objectPrototypeKeys.contains relation then some .inherited else none

/-- `value[key]`. -/
def property (value : Js) (key : String) : Except String Js :=
  match value with
  | .undefined => .error ("TypeError: Cannot read properties of undefined (reading '" ++ key ++ "')")
  | .null => .error ("TypeError: Cannot read properties of null (reading '" ++ key ++ "')")
  | .obj entries => .ok ((Record.lookup key entries).getD .undefined)
  | _ => .ok .undefined

/-- `Object.entries(value)`. -/
def objectEntries : Js → List (String × Js)
  | .obj entries => entries
  | .arr vs => indexEntries vs
  | .str s => indexEntries (chars s)
  | _ => []

/-! ### Fields -/

/-- The loop over the keys of an object: each has to pass the checks, in
their order. -/
def checkFields (refused : String → Bool) (message : String → String) :
    List String → Except String Unit
  | [] => .ok ()
  | field :: rest =>
    if refused field then .error (message field) else checkFields refused message rest

/-- A hidden column, or a field the expose config does not allow: the
evaluated one when there is one, the declared one otherwise. -/
def fieldRefused (hiddenColumns : List String) (allowed : Option (List String))
    (field : String) : Bool :=
  hiddenColumns.contains field || (allowed.map fun keys => !keys.contains field).getD false

def allowedFields (evaluated : Option (List String)) (exposed : Option (List String)) :
    Option (List String) :=
  evaluated.orElse fun _ => exposed

def fieldError (adjective : String) (field : String) : String :=
  "Field \"" ++ field ++ "\" is not " ++ adjective

/-! ### include -/

/-- `where` or `orderBy` of an include entry: every key has to be allowed,
and at least one has to be. -/
def checkRelationFields (gerund adjective option relationPath : String)
    (configured : Option RelationConfigObject) (allow : Option (List String))
    (checkValue : String × Js → Except String Unit) (requested : Js) : Except String Unit :=
  if !requested.truthy then .ok ()
  else
    let allowKeys := extractAllowKeys allow
    if configured.isNone || allowKeys.isEmpty then
      .error (gerund ++ " is not enabled on relation '" ++ relationPath ++ "'. Add '" ++ option ++
        "' to the entity relations config.")
    else
      (objectEntries requested).forM fun e =>
        if !allowKeys.contains e.1 then
          .error ("Field '" ++ e.1 ++ "' is not " ++ adjective ++ " on relation '" ++ relationPath ++
            "'. Allowed: " ++ ", ".intercalate allowKeys)
        else checkValue e

def checkDirection (relationPath : String) (e : String × Js) : Except String Unit :=
  match e.2 with
  | .str "asc" => .ok ()
  | .str "desc" => .ok ()
  | dir =>
    .error ("Invalid orderBy direction '" ++ jsText dir ++ "' for field '" ++ e.1 ++
      "' on relation '" ++ relationPath ++ "'. Must be 'asc' or 'desc'.")

/-- The limit of an include entry, clamped. -/
def clampLimit (relationPath : String) (maxLimit : Option ℚ) (limit : Js) :
    Except String (Option ℚ) :=
  match limit with
  | .undefined => .ok none
  | .num n =>
    let n := if n < 0 then 0 else n
    .ok (some (match maxLimit with
      | some m => if m < n then m else n
      | none => n))
  | _ => .error ("Invalid limit on relation '" ++ relationPath ++ "': must be a finite number")

/-- `field in configObj.select` also finds what every object inherits. -/
def checkRelationSelect (relationPath : String) (select : Option (List String))
    (requested : Js) : Except String Unit :=
  match select with
  | none => .ok ()
  | some keys =>
    if !requested.truthy then .ok ()
    else
      checkFields (fun field => !(keys ++ objectPrototypeKeys).contains field)
        (fun field =>
          "Field \"" ++ field ++ "\" is not exposed on relation \"" ++ relationPath ++ "\"")
        ((objectEntries requested).map Prod.fst)

/-- The entry with its limit replaced. -/
def setLimit (requested : Js) : Option ℚ → Js
  | none => requested
  | some n =>
    match requested with
    | .obj entries => .obj (Record.put "limit" (.num n) entries)
    | v => v

/-- The check of one include entry that is not just `true`. -/
def validateEntry (entityConfig : RelationConfig) (relationPath : String) (requested : Js) :
    Except String Js :=
  let configObj :=
    match entityConfig with
    | .config c => some c
    | _ => none
  (property requested "where").bind fun where_ =>
  (checkRelationFields "Filtering" "filterable" "allowWhere" relationPath configObj
    (configObj.bind RelationConfigObject.allowWhere) (fun _ => .ok ()) where_).bind fun _ =>
  (property requested "orderBy").bind fun orderBy =>
  (checkRelationFields "Sorting" "sortable" "allowOrderBy" relationPath configObj
    (configObj.bind RelationConfigObject.allowOrderBy) (checkDirection relationPath)
    orderBy).bind fun _ =>
  (property requested "limit").bind fun limit =>
  (clampLimit relationPath (configObj.bind RelationConfigObject.maxLimit) limit).bind fun limit =>
  (property requested "select").bind fun select =>
  (checkRelationSelect relationPath (configObj.bind RelationConfigObject.select)
    select).bind fun _ =>
  (property requested "include").bind fun include_ =>
    match entityConfig, include_.truthy with
    | .enabled, true =>
      .error ("Nested includes are not supported on relation '" ++ relationPath ++ "' " ++
        "without a structured relations config.")
    | _, _ => .ok (setLimit requested limit)

/-- Check the include entries; nested ones are passed through. -/
def validateInclude (relationsConfig : Record RelationConfig) (pathPrefix : String) :
    List (String × Js) → Except String (List (String × Js))
  | [] => .ok []
  | (relation, requested) :: rest =>
    let relationPath := if pathPrefix = "" then relation else pathPrefix ++ "." ++ relation
    let checked : Except String Js :=
      match relationConfigOf relationsConfig relation with
      | none => .error ("Relation \"" ++ relationPath ++ "\" is not exposed")
      | some .disabled => .error ("Relation \"" ++ relationPath ++ "\" is not exposed")
      | some entityConfig =>
        match requested with
        | .bool true => .ok requested
        | _ => validateEntry entityConfig relationPath requested
    checked.bind fun requested =>
      (validateInclude relationsConfig pathPrefix rest).map fun rest =>
        (relation, requested) :: rest

/-! ### validateVertzQL -/

/-- A parse error of the `q=` parameter. -/
def checkQuery (qError : Option String) : Except String Unit :=
  match present qError with
  | some message => .error message
  | none => .ok ()

def optionKeys {α : Type} (option : Option (Record α)) : List String :=
  (option.map Record.keys).getD []

/-- Check the options of a request; its include limits are clamped. -/
def validateVertzQL (options : VertzQLOptions) (table : TableDef)
    (relationsConfig : Option (Record RelationConfig))
    (exposeConfig : Option ExposeValidationConfig) (evaluatedExpose : Option EvaluatedExpose) :
    Except String VertzQLOptions :=
  let hiddenColumns := getHiddenColumns table
  (checkQuery options.qError).bind fun _ =>
  (checkFields
    (fieldRefused hiddenColumns (allowedFields
      (evaluatedExpose.map EvaluatedExpose.allowedWhereFields)
      (exposeConfig.map fun c => extractAllowKeys c.allowWhere)))
    (fieldError "filterable") (optionKeys options.where_)).bind fun _ =>
  (checkFields
    (fieldRefused hiddenColumns (allowedFields
      (evaluatedExpose.map EvaluatedExpose.allowedOrderByFields)
      (exposeConfig.map fun c => extractAllowKeys c.allowOrderBy)))
    (fieldError "sortable") (optionKeys options.orderBy)).bind fun _ =>
  (checkFields
    (fieldRefused hiddenColumns
      ((exposeConfig.map fun c => extractAllowKeys c.select).filter fun keys => !keys.isEmpty))
    (fieldError "selectable") (options.select.getD [])).bind fun _ =>
  match options.include_, relationsConfig with
  | some requested, some relationsConfig =>
    (validateInclude relationsConfig "" requested.entries).map fun entries =>
      { options with include_ := some (.ofList entries) }
  | _, _ => .ok options

/-- The options the list route passes to `list`. -/
def VertzQLOptions.listOptions (options : VertzQLOptions) : ListOptions where
  where_ := options.where_
  orderBy := options.orderBy
  limit := options.limit
  after := options.after

end Vertz.Server.Entity
