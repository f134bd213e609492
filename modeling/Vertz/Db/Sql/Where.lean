import Vertz.Lib.Condition
import Vertz.Js
import Vertz.Db.Sql.Text
import Vertz.Db.Sql.Casing

/-!
# `Vertz.Db.Sql.Where`: the WHERE clause builder

`buildWhere` turns a filter tree into a parameterized condition. The
parameter index is threaded by hand through the field entries, the
operators of one field, and the `OR` / `AND` / `NOT` sub-filters.

The emitted text is kept as tokens over atoms (`Clause`), each atom
holding the indices of its placeholders; `clauseText` writes it out.
-/

namespace Vertz.Db.Sql

open Vertz.Lib

/-! ### Emitted conditions -/

/-- One step of a JSONB path. -/
inductive PathSegment where
  | key (value : String)
  | index (value : ℕ)
  deriving DecidableEq, Repr

/-- A quoted column, followed by a JSONB path when `path` is not empty. -/
structure ColumnRef where
  column : String
  path : List PathSegment
  deriving DecidableEq, Repr

/-- The operator between a column and a placeholder. -/
inductive SqlOp where
  | eq
  | ne
  | gt
  | gte
  | lt
  | lte
  | like
  | arrayContains
  | arrayContainedBy
  | arrayOverlaps
  | jsonContains
  | jsonContainedBy
  | hasKey
  | hasAllKeys
  | hasAnyKey
  deriving DecidableEq, Repr

/-- An atomic condition over placeholders of type `H`. -/
inductive Atom (H : Type) where
  | const (b : Bool)
  | isNull (c : ColumnRef) (negated : Bool)
  | binary (c : ColumnRef) (op : SqlOp) (h : H)
  | inList (c : ColumnRef) (negated : Bool) (hs : List H)
  deriving DecidableEq, Repr

/-- A piece of condition text; a placeholder is its parameter index. -/
abbrev Clause := List (Tok (Atom ℕ))

/-- A value handed to the driver. -/
inductive Param where
  | value (v : Js)
  /-- The text of `JSON.stringify v`. -/
  | json (v : Js)

def escapeSingleQuotes (str : String) : String :=
  String.ofList (str.toList.flatMap fun c => if c = '\'' then ['\'', '\''] else [c])

/-- Escape the LIKE metacharacters. -/
def escapeLikeChars (cs : List Char) : List Char :=
  cs.flatMap fun c => if c = '\\' ∨ c = '%' ∨ c = '_' then ['\\', c] else [c]

def escapeLikeValue (str : String) : String :=
  String.ofList (escapeLikeChars str.toList)

def PathSegment.emit : PathSegment → String
  | .key value => "'" ++ escapeSingleQuotes value ++ "'"
  | .index value => toString value

/-- Intermediate segments use `->`, the final one `->>`. -/
def renderPath : List PathSegment → String
  | [] => ""
  | [seg] => "->>" ++ seg.emit
  | seg :: seg' :: segs => "->" ++ seg.emit ++ renderPath (seg' :: segs)

def ColumnRef.render (c : ColumnRef) : String :=
  "\"" ++ c.column ++ "\"" ++ renderPath c.path

def SqlOp.text : SqlOp → String
  | .eq => "="
  | .ne => "!="
  | .gt => ">"
  | .gte => ">="
  | .lt => "<"
  | .lte => "<="
  | .like => "LIKE"
  | .arrayContains => "@>"
  | .arrayContainedBy => "<@"
  | .arrayOverlaps => "&&"
  | .jsonContains => "@>"
  | .jsonContainedBy => "<@"
  | .hasKey => "?"
  | .hasAllKeys => "?&"
  | .hasAnyKey => "?|"

/-- The cast written after the placeholder. -/
def SqlOp.cast : SqlOp → String
  | .jsonContains => "::jsonb"
  | .jsonContainedBy => "::jsonb"
  | .hasAllKeys => "::text[]"
  | .hasAnyKey => "::text[]"
  | _ => ""

def Atom.text {H : Type} : Atom H → SqlText H
  | .const true => [.text "TRUE"]
  | .const false => [.text "FALSE"]
  | .isNull c false => [.text (c.render ++ " IS NULL")]
  | .isNull c true => [.text (c.render ++ " IS NOT NULL")]
  | .binary c op h => [.text (c.render ++ " " ++ op.text ++ " "), .hole h, .text op.cast]
  | .inList c false hs =>
    .text (c.render ++ " IN (") :: SqlText.join ", " (hs.map fun h => [.hole h]) ++ [.text ")"]
  | .inList c true hs =>
    .text (c.render ++ " NOT IN (") :: SqlText.join ", " (hs.map fun h => [.hole h]) ++
      [.text ")"]

def tokText {H : Type} : Tok (Atom H) → SqlText H
  | .atom a => a.text
  | .and => [.text " AND "]
  | .or => [.text " OR "]
  | .not => [.text "NOT "]
  | .lparen => [.text "("]
  | .rparen => [.text ")"]

/-- The text of a condition. -/
def clauseText {H : Type} (ts : List (Tok (Atom H))) : SqlText H := ts.flatMap tokText

/-! ### Filters -/

/-- An optional property: left out, present as `undefined`, or set. -/
inductive Slot (α : Type) where
  | absent
  | undefined
  | value (a : α)

/-- A filter object: its column entries and the three logical keys. -/
inductive WhereFilter where
  | mk (fields : Record Js) (OR AND : Slot (List WhereFilter)) (NOT : Slot WhereFilter)

/-- The operators of a filter, in the order the builder tries them. -/
inductive OperatorKey where
  | eq
  | ne
  | gt
  | gte
  | lt
  | lte
  | contains
  | startsWith
  | endsWith
  | in_
  | notIn
  | isNull
  | arrayContains
  | arrayContainedBy
  | arrayOverlaps
  | jsonContains
  | jsonContainedBy
  | hasKey
  | hasAllKeys
  | hasAnyKey
  deriving DecidableEq, Repr

def OperatorKey.name : OperatorKey → String
  | .eq => "eq"
  | .ne => "ne"
  | .gt => "gt"
  | .gte => "gte"
  | .lt => "lt"
  | .lte => "lte"
  | .contains => "contains"
  | .startsWith => "startsWith"
  | .endsWith => "endsWith"
  | .in_ => "in"
  | .notIn => "notIn"
  | .isNull => "isNull"
  | .arrayContains => "arrayContains"
  | .arrayContainedBy => "arrayContainedBy"
  | .arrayOverlaps => "arrayOverlaps"
  | .jsonContains => "jsonContains"
  | .jsonContainedBy => "jsonContainedBy"
  | .hasKey => "hasKey"
  | .hasAllKeys => "hasAllKeys"
  | .hasAnyKey => "hasAnyKey"

def OPERATOR_KEYS : List OperatorKey :=
  [.eq, .ne, .gt, .gte, .lt, .lte, .contains, .startsWith, .endsWith, .in_, .notIn, .isNull,
    .arrayContains, .arrayContainedBy, .arrayOverlaps, .jsonContains, .jsonContainedBy, .hasKey,
    .hasAllKeys, .hasAnyKey]

def isOperatorObject : Js → Bool
  | .obj entries =>
    !entries.isEmpty && entries.all fun e => OPERATOR_KEYS.any fun k => k.name == e.1
  | _ => false

def isJsonbPathDescriptor : Js → Bool
  | .obj entries =>
    match Record.lookup "_tag" entries with
    | some (.str tag) => tag == "JsonbPathDescriptor"
    | _ => false
  | _ => false

/-- The operators of an operator object that are not `undefined`. -/
def definedOperators (operators : List (String × Js)) : List (OperatorKey × Js) :=
  OPERATOR_KEYS.filterMap fun k =>
    match Record.lookup k.name operators with
    | none => none
    | some .undefined => none
    | some v => some (k, v)

/-- A path descriptor's segment: `{ kind: 'index' | 'key', value }`. -/
def pathSegment : Js → PathSegment
  | .obj entries =>
    match Record.lookup "kind" entries, Record.lookup "value" entries with
    | some (.str "index"), some (.num n) => .index n.num.toNat
    | _, some (.str value) => .key value
    | _, _ => .key ""
  | _ => .key ""

/-- How the builder sees the value of a field entry. -/
inductive FieldValue where
  | path (segments : List PathSegment) (op : List (String × Js))
  | null
  | operators (operators : List (String × Js))
  | direct (value : Js)

/-- The tests of the field loop, in its order. A path descriptor comes
first: it would otherwise be taken for a direct value. -/
def fieldValue (value : Js) : FieldValue :=
  if isJsonbPathDescriptor value then
    match value with
    | .obj entries =>
      .path
        (match Record.lookup "segments" entries with
        | some (.arr segs) => segs.map pathSegment
        | _ => [])
        (match Record.lookup "op" entries with
        | some (.obj op) => op
        | _ => [])
    | _ => .direct value
  else
    match value with
    | .null => .null
    | .obj entries => if isOperatorObject value then .operators entries else .direct value
    | _ => .direct value

/-! ### Column references -/

def jsonbPathError : String :=
  "JSONB path operators (->>, ->) are not supported on SQLite. " ++
    "Use json_extract() via raw SQL or switch to Postgres."

def resolveColumnRefFromSegments (baseKey : String) (segments : List PathSegment)
    (overrides : Option CasingOverrides) (dialect : Dialect) : Except String ColumnRef :=
  if !dialect.supportsJsonbPath then .error jsonbPathError
  else .ok ⟨camelToSnake baseKey overrides, segments⟩

/-- `key.split('->')`. -/
def splitArrow (acc : List Char) : List Char → List (List Char)
  | '-' :: '>' :: cs => acc.reverse :: splitArrow [] cs
  | c :: cs => splitArrow (c :: acc) cs
  | [] => [acc.reverse]

def resolveColumnRef (key : String) (overrides : Option CasingOverrides) (dialect : Dialect) :
    Except String ColumnRef :=
  match splitArrow [] key.toList with
  | baseCol :: part :: parts =>
    if !dialect.supportsJsonbPath then .error jsonbPathError
    else
      .ok ⟨camelToSnake (String.ofList baseCol) overrides,
        (part :: parts).map fun p => .key (String.ofList p)⟩
  | _ => .ok ⟨camelToSnake key overrides, []⟩

/-! ### Operators -/

def arrayOpsError : String :=
  "Array operators (arrayContains, arrayContainedBy, arrayOverlaps) require dialect: postgres. " ++
    "On SQLite, fetch with list() and filter in application code."

def jsonOpError (operator hint : String) : String :=
  operator ++ " requires dialect: postgres. On SQLite, fetch with list() and filter in " ++
    "application code" ++ hint ++ "."

/-- One operator branch: the clause it pushes, the parameters it pushes,
and the index it leaves. An operand outside the operator's declared type
is the `TypeError` of the method called on it. -/
def operatorClause (columnRef : ColumnRef) (dialect : Dialect) (idx : ℕ) :
    OperatorKey → Js → Except String (Atom ℕ × List Param × ℕ)
  | .eq, v => .ok (.binary columnRef .eq (idx + 1), [.value v], idx + 1)
  | .ne, v => .ok (.binary columnRef .ne (idx + 1), [.value v], idx + 1)
  | .gt, v => .ok (.binary columnRef .gt (idx + 1), [.value v], idx + 1)
  | .gte, v => .ok (.binary columnRef .gte (idx + 1), [.value v], idx + 1)
  | .lt, v => .ok (.binary columnRef .lt (idx + 1), [.value v], idx + 1)
  | .lte, v => .ok (.binary columnRef .lte (idx + 1), [.value v], idx + 1)
  | .contains, .str s =>
    .ok (.binary columnRef .like (idx + 1),
      [.value (.str ("%" ++ escapeLikeValue s ++ "%"))], idx + 1)
  | .startsWith, .str s =>
    .ok (.binary columnRef .like (idx + 1), [.value (.str (escapeLikeValue s ++ "%"))], idx + 1)
  | .endsWith, .str s =>
    .ok (.binary columnRef .like (idx + 1), [.value (.str ("%" ++ escapeLikeValue s))], idx + 1)
  | .contains, _ => .error "TypeError: str.replace is not a function"
  | .startsWith, _ => .error "TypeError: str.replace is not a function"
  | .endsWith, _ => .error "TypeError: str.replace is not a function"
  | .in_, .arr [] => .ok (.const false, [], idx)
  | .in_, .arr (v :: vs) =>
    .ok (.inList columnRef false ((List.range (v :: vs).length).map fun i => idx + 1 + i),
      (v :: vs).map .value, idx + (v :: vs).length)
  | .in_, _ => .error "TypeError: operators.in.map is not a function"
  | .notIn, .arr [] => .ok (.const true, [], idx)
  | .notIn, .arr (v :: vs) =>
    .ok (.inList columnRef true ((List.range (v :: vs).length).map fun i => idx + 1 + i),
      (v :: vs).map .value, idx + (v :: vs).length)
  | .notIn, _ => .error "TypeError: operators.notIn.map is not a function"
  | .isNull, v => .ok (.isNull columnRef !v.truthy, [], idx)
  | .arrayContains, v =>
    if !dialect.supportsArrayOps then .error arrayOpsError
    else .ok (.binary columnRef .arrayContains (idx + 1), [.value v], idx + 1)
  | .arrayContainedBy, v =>
    if !dialect.supportsArrayOps then .error arrayOpsError
    else .ok (.binary columnRef .arrayContainedBy (idx + 1), [.value v], idx + 1)
  | .arrayOverlaps, v =>
    if !dialect.supportsArrayOps then .error arrayOpsError
    else .ok (.binary columnRef .arrayOverlaps (idx + 1), [.value v], idx + 1)
  | .jsonContains, v =>
    if !dialect.supportsJsonbPath then .error (jsonOpError "jsonContains" "")
    else .ok (.binary columnRef .jsonContains (idx + 1), [.json v], idx + 1)
  | .jsonContainedBy, v =>
    if !dialect.supportsJsonbPath then .error (jsonOpError "jsonContainedBy" "")
    else .ok (.binary columnRef .jsonContainedBy (idx + 1), [.json v], idx + 1)
  | .hasKey, v =>
    if !dialect.supportsJsonbPath then .error (jsonOpError "hasKey" "")
    else .ok (.binary columnRef .hasKey (idx + 1), [.value v], idx + 1)
  | .hasAllKeys, v =>
    if !dialect.supportsJsonbPath then
      .error (jsonOpError "hasAllKeys"
        ", or compose AND: [\x7b col: \x7b hasKey: \"a\" \x7d \x7d, \x7b col: \x7b hasKey: \"b\" \x7d \x7d]")
    else
      match v with
      | .arr [] => .ok (.const true, [], idx)
      | _ => .ok (.binary columnRef .hasAllKeys (idx + 1), [.value v], idx + 1)
  | .hasAnyKey, v =>
    if !dialect.supportsJsonbPath then
      .error (jsonOpError "hasAnyKey"
        ", or compose OR: [\x7b col: \x7b hasKey: \"a\" \x7d \x7d, \x7b col: \x7b hasKey: \"b\" \x7d \x7d]")
    else
      match v with
      | .arr [] => .ok (.const false, [], idx)
      | _ => .ok (.binary columnRef .hasAnyKey (idx + 1), [.value v], idx + 1)

/-- Clauses, their parameters, and the index after them. -/
structure Built where
  clauses : List Clause
  params : List Param
  nextIndex : ℕ

def buildOperators (columnRef : ColumnRef) (dialect : Dialect) :
    List (OperatorKey × Js) → ℕ → Except String Built
  | [], idx => .ok ⟨[], [], idx⟩
  | (k, v) :: ops, idx =>
    (operatorClause columnRef dialect idx k v).bind fun (atom, params, idx') =>
      (buildOperators columnRef dialect ops idx').bind fun rest =>
        .ok ⟨[.atom atom] :: rest.clauses, params ++ rest.params, rest.nextIndex⟩

def buildOperatorCondition (columnRef : ColumnRef) (operators : List (String × Js))
    (paramIndex : ℕ) (dialect : Dialect) : Except String Built :=
  buildOperators columnRef dialect (definedOperators operators) paramIndex

/-! ### Filter trees -/

/-- One field entry. -/
def buildField (overrides : Option CasingOverrides) (dialect : Dialect) (key : String)
    (value : Js) (idx : ℕ) : Except String Built :=
  if key = "OR" ∨ key = "AND" ∨ key = "NOT" then .ok ⟨[], [], idx⟩
  else
    match fieldValue value with
    | .path segments op =>
      (resolveColumnRefFromSegments key segments overrides dialect).bind fun columnRef =>
        buildOperatorCondition columnRef op idx dialect
    | .null =>
      (resolveColumnRef key overrides dialect).bind fun columnRef =>
        .ok ⟨[[.atom (.isNull columnRef false)]], [], idx⟩
    | .operators operators =>
      (resolveColumnRef key overrides dialect).bind fun columnRef =>
        buildOperatorCondition columnRef operators idx dialect
    | .direct v =>
      (resolveColumnRef key overrides dialect).bind fun columnRef =>
        .ok ⟨[[.atom (.binary columnRef .eq (idx + 1))]], [.value v], idx + 1⟩

/-- The field entries, in enumeration order. -/
def buildFields (overrides : Option CasingOverrides) (dialect : Dialect) :
    List (String × Js) → ℕ → Except String Built
  | [], idx => .ok ⟨[], [], idx⟩
  | (key, value) :: es, idx =>
    (buildField overrides dialect key value idx).bind fun b =>
      (buildFields overrides dialect es b.nextIndex).bind fun rest =>
        .ok ⟨b.clauses ++ rest.clauses, b.params ++ rest.params, rest.nextIndex⟩

/-- A sub-filter's clauses as one operand of a logical list: several
clauses are parenthesised, a single one (and none) is left bare. -/
def operand {H : Type} (clauses : List (List (Tok (Atom H)))) : List (Tok (Atom H)) :=
  if clauses.length > 1 then .lparen :: Tok.join .and clauses ++ [.rparen]
  else Tok.join .and clauses

mutual

def buildFilterClauses (overrides : Option CasingOverrides) (dialect : Dialect) :
    WhereFilter → ℕ → Except String Built
  | .mk fields OR AND NOT, paramOffset =>
    (buildFields overrides dialect fields.entries paramOffset).bind fun b₀ =>
    -- the identity of OR is FALSE, that of AND is TRUE
    (buildLogical overrides dialect .or false OR b₀.nextIndex).bind fun b₁ =>
    (buildLogical overrides dialect .and true AND b₁.nextIndex).bind fun b₂ =>
    (buildNot overrides dialect NOT b₂.nextIndex).bind fun b₃ =>
    .ok ⟨b₀.clauses ++ b₁.clauses ++ b₂.clauses ++ b₃.clauses,
      b₀.params ++ b₁.params ++ b₂.params ++ b₃.params, b₃.nextIndex⟩

/-- `OR` and `AND`: the identity for an empty list, else the operands in
one pair of parentheses. -/
def buildLogical (overrides : Option CasingOverrides) (dialect : Dialect) (sep : Tok (Atom ℕ))
    (identity : Bool) : Slot (List WhereFilter) → ℕ → Except String Built
  | .absent, idx => .ok ⟨[], [], idx⟩
  | .undefined, idx => .ok ⟨[], [], idx⟩
  | .value [], idx => .ok ⟨[[.atom (.const identity)]], [], idx⟩
  | .value (f :: fs), idx =>
    (buildOperands overrides dialect (f :: fs) idx).bind fun subs =>
      .ok ⟨[.lparen :: Tok.join sep subs.clauses ++ [.rparen]], subs.params, subs.nextIndex⟩

def buildNot (overrides : Option CasingOverrides) (dialect : Dialect) :
    Slot WhereFilter → ℕ → Except String Built
  | .absent, idx => .ok ⟨[], [], idx⟩
  | .undefined, idx => .ok ⟨[], [], idx⟩
  | .value f, idx =>
    (buildFilterClauses overrides dialect f idx).bind fun sub =>
      .ok ⟨[.not :: .lparen :: Tok.join .and sub.clauses ++ [.rparen]], sub.params,
        sub.nextIndex⟩

/-- The operands of an `OR` or `AND` list. -/
def buildOperands (overrides : Option CasingOverrides) (dialect : Dialect) :
    List WhereFilter → ℕ → Except String Built
  | [], idx => .ok ⟨[], [], idx⟩
  | f :: fs, idx =>
    (buildFilterClauses overrides dialect f idx).bind fun sub =>
      (buildOperands overrides dialect fs sub.nextIndex).bind fun rest =>
        .ok ⟨operand sub.clauses :: rest.clauses, sub.params ++ rest.params, rest.nextIndex⟩

end

def Slot.isAbsent {α : Type} : Slot α → Bool
  | .absent => true
  | _ => false

/-- `Object.keys(filter).length === 0`. -/
def WhereFilter.isEmpty : WhereFilter → Bool
  | .mk fields OR AND NOT =>
    fields.entries.isEmpty && OR.isAbsent && AND.isAbsent && NOT.isAbsent

/-- A condition without the `WHERE` keyword, and its parameters. -/
structure WhereResult where
  sql : Clause
  params : List Param

def buildWhere (filter : Option WhereFilter) (paramOffset : ℕ)
    (overrides : Option CasingOverrides) (dialect : Dialect) : Except String WhereResult :=
  match filter with
  | none => .ok ⟨[], []⟩
  | some f =>
    if f.isEmpty then .ok ⟨[], []⟩
    else
      (buildFilterClauses overrides dialect f paramOffset).bind fun b =>
        .ok ⟨Tok.join .and b.clauses, b.params⟩

end Vertz.Db.Sql
