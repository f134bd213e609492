import Vertz.Schema.Parse

/-!
# `Vertz.Schema.JsonSchema`: the published JSON Schema

`_toJSONSchema` of each class. A JSON Schema object is its keywords; the
keywords that hold schemas of their own stand beside the others
(`Keywords`). An absent list of properties, prefix items or conjuncts is
the empty one.
-/

namespace Vertz.Schema

inductive TypeName where
  | string
  | number
  | integer
  | boolean
  | array
  | object
  | null
  deriving DecidableEq, Repr

/-- The `type` keyword: one name, or a list of names. -/
inductive TypeKeyword where
  | absent
  | one (name : TypeName)
  | many (names : List TypeName)
  deriving DecidableEq, Repr

/-- The keywords without schemas of their own. -/
structure Keywords where
  type : TypeKeyword := .absent
  const : Option Js := none
  enum : Option (List String) := none
  minimum : Option ℚ := none
  exclusiveMinimum : Option ℚ := none
  maximum : Option ℚ := none
  exclusiveMaximum : Option ℚ := none
  multipleOf : Option ℚ := none
  minLength : Option ℚ := none
  maxLength : Option ℚ := none
  pattern : Option String := none
  minItems : Option ℚ := none
  maxItems : Option ℚ := none
  required : List String := []
  default : Option Js := none

mutual

inductive JSONSchemaObject where
  | mk (keywords : Keywords) (prefixItems : List JSONSchemaObject) (items : Additional)
      (properties : List (String × JSONSchemaObject)) (additionalProperties : Additional)
      (anyOf : Option (List JSONSchemaObject)) (allOf : List JSONSchemaObject)

/-- `items` and `additionalProperties`: absent, `false` or a schema. -/
inductive Additional where
  | absent
  | no
  | schema (s : JSONSchemaObject)

end

namespace JSONSchemaObject

/-- A schema of plain keywords. -/
def plain (keywords : Keywords) : JSONSchemaObject := .mk keywords [] .absent [] .absent none []

def keywords : JSONSchemaObject → Keywords
  | .mk k _ _ _ _ _ _ => k

/-- `{ ...schema, type, default }` and the like. -/
def withKeywords : JSONSchemaObject → (Keywords → Keywords) → JSONSchemaObject
  | .mk k prefixItems items properties additional anyOf allOf, f =>
    .mk (f k) prefixItems items properties additional anyOf allOf

end JSONSchemaObject

/-! ### Emission -/

def stringKeywords (c : StringChecks) : Keywords :=
  { type := .one .string
    minLength := c.min
    maxLength := c.max
    pattern := c.regex.map Regex.source }

def numberKeywords (c : NumberChecks) : Keywords :=
  { type := .one (if c.int then .integer else .number)
    minimum := c.gte
    exclusiveMinimum := c.gt
    maximum := c.lte
    exclusiveMaximum := c.lt
    multipleOf := c.multipleOf }

/-- An exact length takes the place of the bounds. -/
def arrayKeywords (c : ArrayChecks) : Keywords :=
  { type := .one .array
    minItems := c.length.or c.min
    maxItems := c.length.or c.max }

/-- `{ ...inner, type: [inner.type, 'null'] }` when the inner type is one
name, else an alternative to `null`. -/
def nullableOf (inner : JSONSchemaObject) : JSONSchemaObject :=
  match inner.keywords.type with
  | .one name => inner.withKeywords fun k => { k with type := .many [name, .null] }
  | _ =>
    .mk {} [] .absent [] .absent (some [inner, .plain { type := .one .null }]) []

def requiredKeys (shape : List (String × Schema)) : List String :=
  (shape.filter fun e => !isOptionalKey e.2).map Prod.fst

mutual

def toJSONSchema : Schema → JSONSchemaObject
  | .string c => .plain (stringKeywords c)
  | .number c => .plain (numberKeywords c)
  | .boolean => .plain { type := .one .boolean }
  | .literal value => .plain { const := some value.toJs }
  | .enum values => .plain { enum := some values }
  | .array element c =>
    .mk (arrayKeywords c) [] (.schema (toJSONSchema element)) [] .absent none []
  | .tuple items rest =>
    .mk { type := .one .array } (itemSchemas items) (restSchema rest) [] .absent none []
  | .object shape mode catchall =>
    .mk { type := .one .object, required := requiredKeys shape } [] .absent (properties shape)
      (additionalProperties mode catchall) none []
  | .union options => .mk {} [] .absent [] .absent (some (itemSchemas options)) []
  | .intersection left right =>
    .mk {} [] .absent [] .absent none [toJSONSchema left, toJSONSchema right]
  | .optional inner => toJSONSchema inner
  | .nullable inner => nullableOf (toJSONSchema inner)
  | .default inner d => (toJSONSchema inner).withKeywords fun k => { k with default := some d }

def itemSchemas : List Schema → List JSONSchemaObject
  | [] => []
  | item :: items => toJSONSchema item :: itemSchemas items

def restSchema : Option Schema → Additional
  | none => .no
  | some rest => .schema (toJSONSchema rest)

/-- `properties[key] = …` for each key of a shape; under `__proto__` it
only sets the prototype. -/
def properties : List (String × Schema) → List (String × JSONSchemaObject)
  | [] => []
  | (key, schema) :: shape =>
    if key = "__proto__" then properties shape
    else (key, toJSONSchema schema) :: properties shape

/-- A catchall overwrites what `strict` wrote. -/
def additionalProperties : UnknownKeyMode → Option Schema → Additional
  | _, some catchall => .schema (toJSONSchema catchall)
  | .strict, none => .no
  | _, none => .absent

end

end Vertz.Schema
