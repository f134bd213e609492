import Vertz.Lib.Like
import Vertz.Spec.Reading

/-!
# `Vertz.Spec.Engine`: conditions under SQL semantics, and their plain meaning

Two readings of a filter over a row.

`sqlValue` is what a database does with an emitted condition: a
comparison with `NULL` is unknown, `LIKE` matches a pattern by the
dialect's rules, a JSONB path reads the text of what it points to.

`operatorHolds` is what the operator means: `eq` is equality, `contains`
is containment of texts, `in` is membership, a path reads the value it
points to. A comparison with an absent value is undecided
(`undecided`), so there are two plain readings: the three-valued one
(`plainValue`) and the two-valued one (`plainHolds`).

What the code only passes through, such as the order of values or jsonb
containment, is a parameter of the engine that both readings share.
-/

namespace Vertz.Spec

open Vertz.Lib
open Vertz.Db
open Vertz.Db.Sql

/-- A row as stored, by column. -/
abbrev SqlRow := String → Js

/-- A database's own operations on non-null values. -/
structure Engine where
  dialect : DialectName
  /-- The order of two values of one column. -/
  less : Js → Js → Bool
  /-- The text of a JSON value. -/
  textOf : Js → String
  textOf_str : ∀ s, textOf (.str s) = s
  arrayContains : Js → Js → Bool
  arrayOverlaps : Js → Js → Bool
  jsonContains : Js → Js → Bool
  hasKey : Js → Js → Bool

/-- Numbers and texts by their order, no arrays and no JSON. -/
def scalarEngine : Engine where
  dialect := .postgres
  less a b := decide (a < b)
  textOf := fun
    | .str s => s
    | _ => ""
  textOf_str _ := rfl
  arrayContains _ _ := false
  arrayOverlaps _ _ := false
  jsonContains _ _ := false
  hasKey _ _ := false

variable (engine : Engine)

/-- The LIKE escape character, without an ESCAPE clause. -/
def likeEscape : DialectName → Option Char
  | .postgres => some '\\'
  | .sqlite => none

/-- How LIKE compares literal characters. -/
def likeSame : DialectName → Char → Char → Bool
  | .postgres => (· == ·)
  | .sqlite => Like.sameFolded

/-! ### Columns -/

/-- One step of a JSON path; what is not there is `undefined`. -/
def pathStep (v : Js) : PathSegment → Js
  | .key k =>
    match v with
    | .obj entries => (Record.lookup k entries).getD .undefined
    | _ => .undefined
  | .index n =>
    match v with
    | .arr xs => (xs[n]?).getD .undefined
    | _ => .undefined

/-- The value a column reference points to. -/
def cell (row : SqlRow) (c : ColumnRef) : Js := c.path.foldl pathStep (row c.column)

/-- The value SQL compares: a path is read as text. -/
def sqlCell (row : SqlRow) (c : ColumnRef) : Js :=
  if c.path.isEmpty || (cell row c).isNullish then cell row c
  else .str (engine.textOf (cell row c))

/-! ### SQL -/

/-- The value of a parameter; a missing one is `NULL`. -/
def paramValue : Option Param → Js
  | none => .null
  | some (.value v) => v
  | some (.json v) => v

/-- The parameter as compared with a column: against text it is text. -/
def sqlOperand (c : ColumnRef) (v : Js) : Js :=
  if c.path.isEmpty || v.isNullish then v else .str (engine.textOf v)

/-- A comparison that is unknown as soon as a side is `NULL`. -/
def strict (f : Js → Js → Bool) (a b : Js) : Tri :=
  Tri.unknownIf (a.isNullish || b.isNullish) (f a b)

def likeMatches (text pattern : Js) : Bool :=
  match text, pattern with
  | .str t, .str p =>
    Like.matchElems (likeSame engine.dialect) (Like.compile (likeEscape engine.dialect) p.toList)
      t.toList
  | _, _ => false

def elems : Js → List Js
  | .arr vs => vs
  | _ => []

/-- The relation of an operator on non-null values. -/
def sqlRelation : SqlOp → Js → Js → Bool
  | .eq, a, b => a == b
  | .ne, a, b => a != b
  | .gt, a, b => engine.less b a
  | .gte, a, b => !engine.less a b
  | .lt, a, b => engine.less a b
  | .lte, a, b => !engine.less b a
  | .like, a, b => likeMatches engine a b
  | .arrayContains, a, b => engine.arrayContains a b
  | .arrayContainedBy, a, b => engine.arrayContains b a
  | .arrayOverlaps, a, b => engine.arrayOverlaps a b
  | .jsonContains, a, b => engine.jsonContains a b
  | .jsonContainedBy, a, b => engine.jsonContains b a
  | .hasKey, a, b => engine.hasKey a b
  | .hasAllKeys, a, b => (elems b).all (engine.hasKey a)
  | .hasAnyKey, a, b => (elems b).any (engine.hasKey a)

/-- An atomic condition on a row; `IN` is a disjunction of equalities. -/
def sqlValue (row : SqlRow) : Atom (Option Param) → Tri
  | .const b => Tri.ofBool b
  | .isNull c negated => Tri.ofBool ((cell row c).isNullish != negated)
  | .binary c op p =>
    strict (sqlRelation engine op) (sqlCell engine row c) (sqlOperand engine c (paramValue p))
  | .inList c negated ps =>
    let member := Tri.any (ps.map fun p =>
      strict (· == ·) (sqlCell engine row c) (sqlOperand engine c (paramValue p)))
    if negated then Tri.neg member else member

/-- The value of a condition with its parameters in place. -/
def sqlAtom (row : SqlRow) (a : Atom Param) : Tri := sqlValue engine row (atomMap some a)

/-- The text of a condition as the database reads it; without any text
there is no restriction. -/
def readClause (ts : List (Tok (Atom (Option Param)))) : Option (Cond (Atom (Option Param))) :=
  if ts.isEmpty then some (.conj []) else Condition.parse ts

/-! ### The plain meaning -/

/-- Equality of values; the absent values are one value. -/
def sameValue (a b : Js) : Bool := if b.isNullish then a.isNullish else a == b

def containsText (test : List Char → List Char → Bool) (text part : Js) : Bool :=
  match text, part with
  | .str t, .str p => test p.toList t.toList
  | _, _ => false

/-- What an operator means on the value of its column. -/
def operatorHolds (v : Js) : OperatorKey → Js → Bool
  | .eq, w => sameValue v w
  | .ne, w => !sameValue v w
  | .gt, w => !v.isNullish && !w.isNullish && engine.less w v
  | .gte, w => !v.isNullish && !w.isNullish && !engine.less v w
  | .lt, w => !v.isNullish && !w.isNullish && engine.less v w
  | .lte, w => !v.isNullish && !w.isNullish && !engine.less w v
  | .contains, w => containsText (fun p t => decide (p <:+: t)) v w
  | .startsWith, w => containsText (fun p t => decide (p <+: t)) v w
  | .endsWith, w => containsText (fun p t => decide (p <:+ t)) v w
  | .in_, w => (elems w).any (sameValue v)
  | .notIn, w => !(elems w).any (sameValue v)
  | .isNull, w => v.isNullish == w.truthy
  | .arrayContains, w => !v.isNullish && !w.isNullish && engine.arrayContains v w
  | .arrayContainedBy, w => !v.isNullish && !w.isNullish && engine.arrayContains w v
  | .arrayOverlaps, w => !v.isNullish && !w.isNullish && engine.arrayOverlaps v w
  | .jsonContains, w => !v.isNullish && !w.isNullish && engine.jsonContains v w
  | .jsonContainedBy, w => !v.isNullish && !w.isNullish && engine.jsonContains w v
  | .hasKey, w => !v.isNullish && !w.isNullish && engine.hasKey v w
  | .hasAllKeys, w =>
    (elems w).isEmpty || (!v.isNullish && !w.isNullish && (elems w).all (engine.hasKey v))
  | .hasAnyKey, w => !v.isNullish && !w.isNullish && (elems w).any (engine.hasKey v)

/-- Whether an absent value is compared, so that a three-valued reading
leaves the operator undecided. -/
def undecided (v : Js) : OperatorKey → Js → Bool
  | .eq, w => v.isNullish && !w.isNullish
  | .ne, w => v.isNullish && !w.isNullish
  | .contains, _ => v.isNullish
  | .startsWith, _ => v.isNullish
  | .endsWith, _ => v.isNullish
  | .in_, w => v.isNullish && !(elems w).isEmpty && !(elems w).any Js.isNullish
  | .notIn, w => v.isNullish && !(elems w).isEmpty && !(elems w).any Js.isNullish
  | .isNull, _ => false
  | .hasAllKeys, w => !(elems w).isEmpty && v.isNullish
  | .hasAnyKey, w => !(elems w).isEmpty && v.isNullish
  | _, w => v.isNullish || w.isNullish

/-- The three-valued meaning of an operator. -/
def operatorValue (v : Js) (k : OperatorKey) (w : Js) : Tri :=
  Tri.unknownIf (undecided v k w) (operatorHolds engine v k w)

/-- The operators of a field entry with the column they apply to. A
direct value is shorthand for `eq`, and an `undefined` operator imposes
nothing. -/
def entryOperators (overrides : Option CasingOverrides) (key : String) (value : Js) :
    List (ColumnRef × OperatorKey × Js) :=
  if key = "OR" ∨ key = "AND" ∨ key = "NOT" then []
  else
    match fieldValue value with
    | .path segments op =>
      (definedOperators op).map fun (k, v) => (⟨camelToSnake key overrides, segments⟩, k, v)
    | .null => [(columnRefOf key overrides, .isNull, .bool true)]
    | .operators operators =>
      (definedOperators operators).map fun (k, v) => (columnRefOf key overrides, k, v)
    | .direct .undefined => []
    | .direct v => [(columnRefOf key overrides, .eq, v)]

/-- The three-valued meaning of a field entry. -/
def plainValue (overrides : Option CasingOverrides) (row : SqlRow) (e : String × Js) : Tri :=
  Tri.all ((entryOperators overrides e.1 e.2).map fun (c, k, v) =>
    operatorValue engine (cell row c) k v)

/-- The two-valued meaning of a field entry. -/
def plainHolds (overrides : Option CasingOverrides) (row : SqlRow) (e : String × Js) : Bool :=
  (entryOperators overrides e.1 e.2).all fun (c, k, v) => operatorHolds engine (cell row c) k v

/-- The plain reading of a filter, with comparisons of absent values
undecided. -/
def reading (overrides : Option CasingOverrides) (row : SqlRow) (f : WhereFilter) : Tri :=
  filterValue (plainValue engine overrides row) f

/-- The two-valued plain reading of a filter. -/
def holds (overrides : Option CasingOverrides) (row : SqlRow) (f : WhereFilter) : Prop :=
  filterValue (fun e => Tri.ofBool (plainHolds engine overrides row e)) f = .yes

/-! ### Where the two agree -/

/-- A LIKE operand the dialect matches literally. -/
def likeFaithful : Js → Bool
  | .str s =>
    ((likeEscape engine.dialect).isSome || s.toList.all fun c => !Like.isMeta c) &&
      (engine.dialect == .postgres || s.toList.all fun c => !c.isAlpha)
  | _ => false

def isString : Js → Bool
  | .str _ => true
  | _ => false

def isArray : Js → Bool
  | .arr _ => true
  | _ => false

/-- Operands a comparison can be trusted with: no absent value where it
is compared for equality, no LIKE operand the dialect misreads, and only
text against the text of a path. -/
def operatorFaithful (c : ColumnRef) : OperatorKey → Js → Bool
  | .eq, w => !w.isNullish && (c.path.isEmpty || isString w)
  | .ne, w => !w.isNullish && (c.path.isEmpty || isString w)
  | .gt, w => c.path.isEmpty || w.isNullish || isString w
  | .gte, w => c.path.isEmpty || w.isNullish || isString w
  | .lt, w => c.path.isEmpty || w.isNullish || isString w
  | .lte, w => c.path.isEmpty || w.isNullish || isString w
  | .contains, w => likeFaithful engine w
  | .startsWith, w => likeFaithful engine w
  | .endsWith, w => likeFaithful engine w
  | .in_, w => (elems w).all fun x => !x.isNullish && (c.path.isEmpty || isString x)
  | .notIn, w => (elems w).all fun x => !x.isNullish && (c.path.isEmpty || isString x)
  | .isNull, _ => true
  | .hasAllKeys, w => c.path.isEmpty && isArray w
  | .hasAnyKey, w => c.path.isEmpty && isArray w
  | _, _ => c.path.isEmpty

/-- A field entry whose conditions mean what its operators say. A direct
`undefined` is not one: it is compared, not skipped. -/
def entryFaithful (overrides : Option CasingOverrides) (e : String × Js) : Bool :=
  (match e.2 with
    | .undefined => e.1 == "OR" || e.1 == "AND" || e.1 == "NOT"
    | _ => true) &&
  (entryOperators overrides e.1 e.2).all fun (c, k, w) => operatorFaithful engine c k w

/-- The value at a JSONB path is text, as the type of the operand it is
compared with promises. -/
def entryTyped (overrides : Option CasingOverrides) (row : SqlRow) (e : String × Js) : Bool :=
  (entryOperators overrides e.1 e.2).all fun (c, k, _) =>
    c.path.isEmpty || k == .isNull || (cell row c).isNullish || isString (cell row c)

/-- No absent value is compared. -/
def entryDecided (overrides : Option CasingOverrides) (row : SqlRow) (e : String × Js) : Bool :=
  (entryOperators overrides e.1 e.2).all fun (c, k, w) => !undecided (cell row c) k w

/-- No absent value is compared by `ne` or `notIn`. -/
def entrySettled (overrides : Option CasingOverrides) (row : SqlRow) (e : String × Js) : Bool :=
  (entryOperators overrides e.1 e.2).all fun (c, k, w) =>
    (k != .ne && k != .notIn) || !undecided (cell row c) k w

/-- Every entry of the filter means what its operators say. -/
def Faithful (overrides : Option CasingOverrides) (f : WhereFilter) : Prop :=
  ∀ e ∈ allEntries f, entryFaithful engine overrides e = true

/-- Every JSONB path the filter compares holds text or nothing. -/
def PathsTyped (overrides : Option CasingOverrides) (row : SqlRow) (f : WhereFilter) : Prop :=
  ∀ e ∈ allEntries f, entryTyped overrides row e = true

/-- The columns the filter compares under `NOT`, `ne` or `notIn` are not
absent from the row. -/
def NegatedPresent (overrides : Option CasingOverrides) (row : SqlRow) (f : WhereFilter) : Prop :=
  (∀ e ∈ positiveEntries f, entrySettled overrides row e = true) ∧
    ∀ e ∈ negatedEntries f, entryDecided overrides row e = true

end Vertz.Spec
