import Mathlib.Algebra.GroupWithZero.Nat
import Mathlib.Data.List.Infix
import Vertz.Js

/-!
# `Vertz.Schema.Parse`: schemas and validation issues

The schema classes that only validate: strings, numbers, booleans,
literals, enums, arrays, tuples, objects, unions, intersections and the
optional, nullable and default wrappers. A class is a constructor and its
private fields are the constructor's data.

Left out are the classes and flags that change a value on its way
(transforms, coercion, pipes, `catch`, `trim` and its like), refinements,
and the `id` and the descriptions of a schema: the tracker of references
never sees a schema without an id. Numbers are finite, so that `finite`
checks nothing here.
-/

namespace Vertz.Schema

/-! ### Issues -/

inductive ErrorCode where
  | invalidType
  | tooSmall
  | tooBig
  | invalidString
  | invalidEnumValue
  | invalidLiteral
  | invalidUnion
  | missingProperty
  | unrecognizedKeys
  | invalidIntersection
  | notMultipleOf
  | custom
  deriving DecidableEq, Repr

/-- A step of a path: a property or an index. -/
inductive Segment where
  | key (key : String)
  | index (i : ℕ)
  deriving DecidableEq, Repr

structure ValidationIssue where
  code : ErrorCode
  message : String
  path : List Segment
  deriving DecidableEq, Repr

/-! ### Schemas -/

structure Regex where
  source : String
  flags : String
  deriving DecidableEq, Repr

/-- The checks of a string, and the messages given for them. -/
structure StringChecks where
  min : Option ℚ := none
  minMessage : Option String := none
  max : Option ℚ := none
  maxMessage : Option String := none
  length : Option ℚ := none
  lengthMessage : Option String := none
  regex : Option Regex := none
  startsWith : Option String := none
  endsWith : Option String := none
  includes : Option String := none
  uppercase : Bool := false
  lowercase : Bool := false
  deriving DecidableEq, Repr

structure NumberChecks where
  gte : Option ℚ := none
  gteMessage : Option String := none
  gt : Option ℚ := none
  gtMessage : Option String := none
  lte : Option ℚ := none
  lteMessage : Option String := none
  lt : Option ℚ := none
  ltMessage : Option String := none
  int : Bool := false
  positive : Bool := false
  negative : Bool := false
  nonnegative : Bool := false
  nonpositive : Bool := false
  multipleOf : Option ℚ := none
  invalidTypeMessage : Option String := none
  deriving DecidableEq, Repr

structure ArrayChecks where
  min : Option ℚ := none
  max : Option ℚ := none
  length : Option ℚ := none
  deriving DecidableEq, Repr

/-- `string | number | boolean | null`. -/
inductive LiteralValue where
  | str (s : String)
  | num (q : ℚ)
  | bool (b : Bool)
  | null
  deriving DecidableEq, Repr

def LiteralValue.toJs : LiteralValue → Js
  | .str s => .str s
  | .num q => .num q
  | .bool b => .bool b
  | .null => .null

inductive UnknownKeyMode where
  | strip
  | strict
  | passthrough
  deriving DecidableEq, Repr

inductive Schema where
  | string (checks : StringChecks)
  | number (checks : NumberChecks)
  | boolean
  | literal (value : LiteralValue)
  | enum (values : List String)
  | array (element : Schema) (checks : ArrayChecks)
  | tuple (items : List Schema) (rest : Option Schema)
  | object (shape : List (String × Schema)) (unknownKeys : UnknownKeyMode)
      (catchall : Option Schema)
  | union (options : List Schema)
  | intersection (left right : Schema)
  | optional (inner : Schema)
  | nullable (inner : Schema)
  | default (inner : Schema) (value : Js)

/-- The library functions the classes call. A regular expression is
tested without a state of its own (no `g` or `y` flag). -/
structure Runtime where
  toUpperCase : String → String
  toLowerCase : String → String
  test : Regex → String → Bool
  regexText : Regex → String
  numberText : ℚ → String
  stringify : Js → String

/-- `str.length`, in UTF-16 code units. -/
def utf16Length (s : String) : ℕ := (s.toList.map fun c => if c.val > 0xFFFF then 2 else 1).sum

/-- Whether a schema may be left out of an object:
`schema instanceof OptionalSchema || schema instanceof DefaultSchema`. -/
def isOptionalKey : Schema → Bool
  | .optional _ => true
  | .default _ _ => true
  | _ => false

end Vertz.Schema

/-!
## Validating a value

`_parse` of each class: the parsed value and the issues it adds. The
context's path is an argument; an issue with a path of its own keeps that
path.

An object schema finds a key with `in`, which also finds what every
object inherits (`inherited`): functions, and the prototype itself.
-/

namespace Vertz.Schema

open Vertz.Lib

/-- What a schema can be run on: a value, or an inherited function. -/
inductive Input where
  | value (v : Js)
  | function (source : String)

/-- What the input is returned as; a function is never accepted. -/
def Input.toJs : Input → Js
  | .value v => v
  | .function _ => .undefined

def typeof : Input → String
  | .value .undefined => "undefined"
  | .value .null => "object"
  | .value (.bool _) => "boolean"
  | .value (.num _) => "number"
  | .value (.str _) => "string"
  | .value (.arr _) => "object"
  | .value (.obj _) => "object"
  | .function _ => "function"

def receivedType : Input → String
  | .value .null => "null"
  | .value (.arr _) => "array"
  | v => typeof v

/-- The members of `Object.prototype`. -/
def inherited (key : String) : Option Input :=
  if key = "__proto__" then some (.value (.obj []))
  else if key = "constructor" then some (.function "function Object() \x7b [native code] \x7d")
  else if ["toString", "toLocaleString", "valueOf", "hasOwnProperty", "isPrototypeOf",
      "propertyIsEnumerable", "__defineGetter__", "__defineSetter__", "__lookupGetter__",
      "__lookupSetter__"].contains key then
    some (.function ("function " ++ key ++ "() \x7b [native code] \x7d"))
  else none

abbrev Path := List Segment

/-- `ctx.addIssue` under a condition. -/
def issueIf (failed : Bool) (code : ErrorCode) (message : String) (path : Path) :
    List ValidationIssue :=
  if failed then [⟨code, message, path⟩] else []

section

variable (rt : Runtime)

/-! ### Leaves -/

def stringIssues (c : StringChecks) (v : String) (path : Path) : List ValidationIssue :=
  let length : ℚ := utf16Length v
  issueIf (c.min.any fun n => length < n) .tooSmall
      (c.minMessage.getD ("String must contain at least " ++ rt.numberText (c.min.getD 0) ++
        " character(s)")) path ++
    issueIf (c.max.any fun n => n < length) .tooBig
      (c.maxMessage.getD ("String must contain at most " ++ rt.numberText (c.max.getD 0) ++
        " character(s)")) path ++
    issueIf (c.length.any fun n => length ≠ n) .invalidString
      (c.lengthMessage.getD ("String must be exactly " ++ rt.numberText (c.length.getD 0) ++
        " character(s)")) path ++
    issueIf (c.regex.any fun r => !rt.test r v) .invalidString
      ("Invalid: must match " ++ (c.regex.map rt.regexText).getD "") path ++
    issueIf (c.startsWith.any fun p => !p.toList.isPrefixOf v.toList) .invalidString
      ("Invalid input: must start with \"" ++ c.startsWith.getD "" ++ "\"") path ++
    issueIf (c.endsWith.any fun p => !p.toList.isSuffixOf v.toList) .invalidString
      ("Invalid input: must end with \"" ++ c.endsWith.getD "" ++ "\"") path ++
    issueIf (c.includes.any fun p => !decide (p.toList <:+: v.toList)) .invalidString
      ("Invalid input: must include \"" ++ c.includes.getD "" ++ "\"") path ++
    issueIf (c.uppercase && v != rt.toUpperCase v) .invalidString
      "Expected string to be uppercase" path ++
    issueIf (c.lowercase && v != rt.toLowerCase v) .invalidString
      "Expected string to be lowercase" path

def parseString (c : StringChecks) (v : Input) (path : Path) : Js × List ValidationIssue :=
  match v with
  | .value (.str s) => (.str s, stringIssues rt c s path)
  | v => (v.toJs, [⟨.invalidType, "Expected string, received " ++ typeof v, path⟩])

/-- `value % n === 0`; nothing is a multiple of zero. -/
def isMultipleOf (value n : ℚ) : Bool := n ≠ 0 && (value / n).den == 1

def numberIssues (c : NumberChecks) (v : ℚ) (path : Path) : List ValidationIssue :=
  issueIf (c.gte.any fun n => v < n) .tooSmall
      (c.gteMessage.getD ("Number must be greater than or equal to " ++
        rt.numberText (c.gte.getD 0))) path ++
    issueIf (c.gt.any fun n => v ≤ n) .tooSmall
      (c.gtMessage.getD ("Number must be greater than " ++ rt.numberText (c.gt.getD 0))) path ++
    issueIf (c.lte.any fun n => n < v) .tooBig
      (c.lteMessage.getD ("Number must be less than or equal to " ++
        rt.numberText (c.lte.getD 0))) path ++
    issueIf (c.lt.any fun n => n ≤ v) .tooBig
      (c.ltMessage.getD ("Number must be less than " ++ rt.numberText (c.lt.getD 0))) path ++
    issueIf (c.int && v.den != 1) .invalidType "Expected integer, received float" path ++
    issueIf (c.positive && v ≤ 0) .tooSmall "Number must be positive" path ++
    issueIf (c.negative && 0 ≤ v) .tooBig "Number must be negative" path ++
    issueIf (c.nonnegative && v < 0) .tooSmall "Number must be nonnegative" path ++
    issueIf (c.nonpositive && 0 < v) .tooBig "Number must be nonpositive" path ++
    issueIf (c.multipleOf.any fun n => !isMultipleOf v n) .notMultipleOf
      ("Number must be a multiple of " ++ rt.numberText (c.multipleOf.getD 0)) path

def parseNumber (c : NumberChecks) (v : Input) (path : Path) : Js × List ValidationIssue :=
  match v with
  | .value (.num q) => (.num q, numberIssues rt c q path)
  | v => (v.toJs, [⟨.invalidType, c.invalidTypeMessage.getD "Must be a number", path⟩])

def parseBoolean (v : Input) (path : Path) : Js × List ValidationIssue :=
  match v with
  | .value (.bool b) => (.bool b, [])
  | v => (v.toJs, [⟨.invalidType, "Expected boolean, received " ++ typeof v, path⟩])

/-- `JSON.stringify(value)` in a message. -/
def stringifyInput : Input → String
  | .value v => rt.stringify v
  | .function _ => "undefined"

/-- `value === literal`. -/
def isLiteral (literal : LiteralValue) : Input → Bool
  | .value v => v = literal.toJs
  | .function _ => false

def parseLiteral (literal : LiteralValue) (v : Input) (path : Path) : Js × List ValidationIssue :=
  (v.toJs, issueIf (!isLiteral literal v) .invalidLiteral
    ("Expected " ++ rt.stringify literal.toJs ++ ", received " ++ stringifyInput rt v) path)

/-- The text of a value in a template literal. -/
def inputText : Input → String
  | .value (.str s) => s
  | .value v => rt.stringify v
  | .function source => source

def isEnumValue (values : List String) : Input → Bool
  | .value (.str s) => values.contains s
  | _ => false

def parseEnum (values : List String) (v : Input) (path : Path) : Js × List ValidationIssue :=
  (v.toJs, issueIf (!isEnumValue values v) .invalidEnumValue
    ("Invalid enum value. Expected " ++
      " | ".intercalate (values.map fun v => "'" ++ v ++ "'") ++ ", received '" ++
      inputText rt v ++ "'") path)

def lengthIssues (c : ArrayChecks) (length : ℕ) (path : Path) : List ValidationIssue :=
  issueIf (c.min.any fun n => (length : ℚ) < n) .tooSmall
      ("Array must contain at least " ++ rt.numberText (c.min.getD 0) ++ " element(s)") path ++
    issueIf (c.max.any fun n => n < (length : ℚ)) .tooBig
      ("Array must contain at most " ++ rt.numberText (c.max.getD 0) ++ " element(s)") path ++
    issueIf (c.length.any fun n => (length : ℚ) ≠ n) .invalidType
      ("Array must contain exactly " ++ rt.numberText (c.length.getD 0) ++ " element(s)") path

/-! ### Objects and results -/

/-- `result[key] = value`; under `__proto__` it only sets the prototype. -/
def assign (entries : List (String × Js)) (e : String × Js) : List (String × Js) :=
  if e.1 = "__proto__" then entries else Record.put e.1 e.2 entries

/-- The entries of a spread object or array. -/
def spreadEntries : Js → List (String × Js)
  | .obj entries => entries
  | .arr xs => xs.zipIdx.map fun (x, i) => (toString i, x)
  | _ => []

def isObject : Js → Bool
  | .obj _ => true
  | .arr _ => true
  | _ => false

/-- What an intersection returns when both sides accept. -/
def mergeResults (left right : Js) : Js :=
  if isObject left && isObject right then
    .obj ((spreadEntries left ++ spreadEntries right).foldl
      (fun acc e => Record.put e.1 e.2 acc) [])
  else left

/-- `Object.keys(obj).filter((k) => !shapeKeys.has(k))`, with the values. -/
def unknownEntries (shape : List (String × Schema)) (obj : List (String × Js)) :
    List (String × Js) :=
  obj.filter fun e => !(shape.map Prod.fst).contains e.1

def unrecognizedMessage (unknown : List (String × Js)) : String :=
  "Unrecognized key(s) in object: " ++
    ", ".intercalate (unknown.map fun e => "\"" ++ e.1 ++ "\"")

/-! ### The classes -/

mutual

def parse : Schema → Input → Path → Js × List ValidationIssue
  | .string c, v, path => parseString rt c v path
  | .number c, v, path => parseNumber rt c v path
  | .boolean, v, path => parseBoolean v path
  | .literal l, v, path => parseLiteral rt l v path
  | .enum values, v, path => parseEnum rt values v path
  | .array element c, .value (.arr xs), path =>
    let parsed := xs.zipIdx.map fun (x, i) => parse element (.value x) (path ++ [.index i])
    (.arr (parsed.map Prod.fst),
      lengthIssues rt c xs.length path ++ parsed.flatMap Prod.snd)
  | .array _ _, v, path =>
    (v.toJs, [⟨.invalidType, "Expected array, received " ++ typeof v, path⟩])
  | .tuple items rest, .value (.arr xs), path =>
    let n := items.length
    let lengthIssue :=
      issueIf (rest.isNone && xs.length != n) .invalidType
        ("Expected array of length " ++ toString n ++ ", received " ++ toString xs.length) path ++
      issueIf (rest.isSome && decide (xs.length < n)) .invalidType
        ("Expected at least " ++ toString n ++ " element(s), received " ++ toString xs.length)
        path
    let (vs, issues) := parseItems items xs 0 path
    let (ws, restIssues) := parseRest rest (xs.drop n) n path
    (.arr (vs ++ ws), lengthIssue ++ issues ++ restIssues)
  | .tuple _ _, v, path =>
    (v.toJs, [⟨.invalidType, "Expected array, received " ++ typeof v, path⟩])
  | .object shape mode catchall, .value (.obj obj), path =>
    let (result, issues) := parseShape shape obj path
    let unknown := unknownEntries shape obj
    let (extra, unknownIssues) := parseUnknown catchall mode unknown path
    (.obj ((result ++ extra).foldl assign []), issues ++ unknownIssues)
  | .object _ _ _, v, path =>
    (v.toJs, [⟨.invalidType, "Expected object, received " ++ receivedType v, path⟩])
  | .union options, v, path =>
    match parseOptions options v with
    | some result => (result, [])
    | none =>
      (v.toJs, [⟨.invalidUnion,
        "Invalid input: value does not match any option in the union", path⟩])
  | .intersection left right, v, path =>
    let (l, leftIssues) := parse left v []
    let (r, rightIssues) := parse right v []
    if !leftIssues.isEmpty || !rightIssues.isEmpty then
      (v.toJs, [⟨.invalidIntersection, "Value does not satisfy intersection", path⟩])
    else (mergeResults l r, [])
  | .optional inner, v, path =>
    match v with
    | .value .undefined => (.undefined, [])
    | v => parse inner v path
  | .nullable inner, v, path =>
    match v with
    | .value .null => (.null, [])
    | v => parse inner v path
  | .default inner d, v, path =>
    match v with
    | .value .undefined => parse inner (.value d) path
    | v => parse inner v path

/-- The items of a tuple; an item the array is too short for is run on
`undefined`. -/
def parseItems : List Schema → List Js → ℕ → Path → List Js × List ValidationIssue
  | [], _, _, _ => ([], [])
  | item :: items, xs, i, path =>
    let (v, issues) := parse item (.value (xs.headD .undefined)) (path ++ [.index i])
    let (vs, rest) := parseItems items xs.tail (i + 1) path
    (v :: vs, issues ++ rest)

/-- The elements behind the items. -/
def parseRest : Option Schema → List Js → ℕ → Path → List Js × List ValidationIssue
  | none, _, _, _ => ([], [])
  | some rest, xs, n, path =>
    let parsed := xs.zipIdx.map fun (x, i) => parse rest (.value x) (path ++ [.index (n + i)])
    (parsed.map Prod.fst, parsed.flatMap Prod.snd)

/-- The keys of a shape. -/
def parseShape : List (String × Schema) → List (String × Js) → Path →
    List (String × Js) × List ValidationIssue
  | [], _, _ => ([], [])
  | (key, schema) :: shape, obj, path =>
    let (entries, rest) := parseShape shape obj path
    match ((Record.lookup key obj).map Input.value).or (inherited key) with
    | some v =>
      let (parsed, issues) := parse schema v (path ++ [.key key])
      ((key, parsed) :: entries, issues ++ rest)
    | none =>
      match schema with
      | .default inner d =>
        let (parsed, issues) := parse (.default inner d) (.value .undefined) (path ++ [.key key])
        ((key, parsed) :: entries, issues ++ rest)
      | .optional _ => (entries, rest)
      | _ =>
        (entries, ⟨.missingProperty, "Missing required property \"" ++ key ++ "\"",
          [.key key]⟩ :: rest)

/-- The keys an object has beyond its shape. -/
def parseUnknown : Option Schema → UnknownKeyMode → List (String × Js) → Path →
    List (String × Js) × List ValidationIssue
  | some catchall, _, unknown, path =>
    let parsed := (unknown.filter fun e => e.1 != "__proto__").map fun (key, v) =>
      let (parsed, issues) := parse catchall (.value v) (path ++ [.key key])
      ((key, parsed), issues)
    (parsed.map Prod.fst, parsed.flatMap Prod.snd)
  | none, .strict, unknown, path =>
    ([], issueIf (!unknown.isEmpty) .unrecognizedKeys (unrecognizedMessage unknown) path)
  | none, .passthrough, unknown, _ => (unknown, [])
  | none, .strip, _, _ => ([], [])

/-- The first option that accepts. -/
def parseOptions : List Schema → Input → Option Js
  | [], _ => none
  | option :: options, v =>
    let (result, issues) := parse option v []
    if issues.isEmpty then some result else parseOptions options v

end

end

end Vertz.Schema
