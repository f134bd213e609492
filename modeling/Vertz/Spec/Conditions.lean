import Vertz.Db.Sql.Update

/-!
# `Vertz.Spec.Conditions`: what a filter asks for

The conditions of a filter tree with the values in the places they are
compared at. No parameter list and no index appears: these definitions
say which condition each operator, field and logical key of a filter
stands for, and the statement builders are measured against them.
-/

namespace Vertz.Spec

open Vertz.Lib
open Vertz.Db.Sql

/-- A condition with its values in place. -/
abbrev Condition := List (Tok (Atom Param))

/-- The column a field key names, with its JSONB path. -/
def columnRefOf (key : String) (overrides : Option CasingOverrides) : ColumnRef :=
  match splitArrow [] key.toList with
  | baseCol :: part :: parts =>
    ⟨camelToSnake (String.ofList baseCol) overrides,
      (part :: parts).map fun p => .key (String.ofList p)⟩
  | _ => ⟨camelToSnake key overrides, []⟩

/-- A set operator: no element can be in the empty set. -/
def inCondition (c : ColumnRef) (negated : Bool) : Js → Atom Param
  | .arr [] => .const negated
  | .arr vs => .inList c negated (vs.map .value)
  | _ => .const negated

def likeCondition (c : ColumnRef) (pattern : String → String) : Js → Atom Param
  | .str s => .binary c .like (.value (.str (pattern s)))
  | _ => .const false

/-- A key-set operator over the empty set is the constant `empty`. -/
def keySetCondition (c : ColumnRef) (op : SqlOp) (empty : Bool) : Js → Atom Param
  | .arr [] => .const empty
  | v => .binary c op (.value v)

/-- The condition of one operator on one column. -/
def operatorCondition (c : ColumnRef) : OperatorKey → Js → Atom Param
  | .eq, v => .binary c .eq (.value v)
  | .ne, v => .binary c .ne (.value v)
  | .gt, v => .binary c .gt (.value v)
  | .gte, v => .binary c .gte (.value v)
  | .lt, v => .binary c .lt (.value v)
  | .lte, v => .binary c .lte (.value v)
  | .contains, v => likeCondition c (fun s => "%" ++ escapeLikeValue s ++ "%") v
  | .startsWith, v => likeCondition c (fun s => escapeLikeValue s ++ "%") v
  | .endsWith, v => likeCondition c (fun s => "%" ++ escapeLikeValue s) v
  | .in_, v => inCondition c false v
  | .notIn, v => inCondition c true v
  | .isNull, v => .isNull c !v.truthy
  | .arrayContains, v => .binary c .arrayContains (.value v)
  | .arrayContainedBy, v => .binary c .arrayContainedBy (.value v)
  | .arrayOverlaps, v => .binary c .arrayOverlaps (.value v)
  | .jsonContains, v => .binary c .jsonContains (.json v)
  | .jsonContainedBy, v => .binary c .jsonContainedBy (.json v)
  | .hasKey, v => .binary c .hasKey (.value v)
  | .hasAllKeys, v => keySetCondition c .hasAllKeys true v
  | .hasAnyKey, v => keySetCondition c .hasAnyKey false v

/-- The conditions of one field entry. -/
def fieldConditions (overrides : Option CasingOverrides) (key : String) (value : Js) :
    List (Atom Param) :=
  if key = "OR" ∨ key = "AND" ∨ key = "NOT" then []
  else
    match fieldValue value with
    | .path segments op =>
      (definedOperators op).map fun (k, v) =>
        operatorCondition ⟨camelToSnake key overrides, segments⟩ k v
    | .null => [.isNull (columnRefOf key overrides) false]
    | .operators operators =>
      (definedOperators operators).map fun (k, v) =>
        operatorCondition (columnRefOf key overrides) k v
    | .direct v => [.binary (columnRefOf key overrides) .eq (.value v)]

/-- The conditions of the field entries, each an operand of its own. -/
def entryConditions (overrides : Option CasingOverrides) (entries : List (String × Js)) :
    List Condition :=
  entries.flatMap fun (key, value) =>
    (fieldConditions overrides key value).map fun a => [.atom a]

mutual

/-- The operands a filter tree's condition conjoins. -/
def filterConditions (overrides : Option CasingOverrides) : WhereFilter → List Condition
  | .mk fields OR AND NOT =>
    entryConditions overrides fields.entries ++ logicalConditions overrides .or false OR ++
      logicalConditions overrides .and true AND ++ notConditions overrides NOT

/-- A logical list: its identity when it is empty. -/
def logicalConditions (overrides : Option CasingOverrides) (sep : Tok (Atom Param))
    (identity : Bool) : Slot (List WhereFilter) → List Condition
  | .absent => []
  | .undefined => []
  | .value [] => [[.atom (.const identity)]]
  | .value (f :: fs) =>
    [.lparen :: Tok.join sep (operandConditions overrides (f :: fs)) ++ [.rparen]]

def notConditions (overrides : Option CasingOverrides) : Slot WhereFilter → List Condition
  | .absent => []
  | .undefined => []
  | .value f => [.not :: .lparen :: Tok.join .and (filterConditions overrides f) ++ [.rparen]]

/-- One operand for each filter of a logical list. -/
def operandConditions (overrides : Option CasingOverrides) : List WhereFilter → List Condition
  | [] => []
  | f :: fs => operand (filterConditions overrides f) :: operandConditions overrides fs

end

/-- A filter's whole condition. -/
def whereCondition (overrides : Option CasingOverrides) : Option WhereFilter → Condition
  | none => []
  | some f => if f.isEmpty then [] else Tok.join .and (filterConditions overrides f)

end Vertz.Spec

/-!
## What it means for placeholders to line up

The statements the builders should emit, with every value standing in
the condition, cursor, assignment or limit it belongs to, and the
property that emitted text and parameter list agree with them
(`Aligned`).
-/

namespace Vertz.Spec

open Vertz.Lib
open Vertz.Db
open Vertz.Db.Sql

variable {H K : Type}

def atomMap (f : H → K) : Atom H → Atom K
  | .const b => .const b
  | .isNull c n => .isNull c n
  | .binary c op h => .binary c op (f h)
  | .inList c n hs => .inList c n (hs.map f)

/-- The parameter a placeholder stands for, counted from the offset. -/
def paramAt (off : ℕ) (params : List Param) (n : ℕ) : Option Param :=
  if n ≤ off then none else params[n - off - 1]?

/-- A condition with each placeholder replaced by its parameter. -/
def bindParams (off : ℕ) (params : List Param) (ts : Clause) :
    List (Tok (Atom (Option Param))) :=
  ts.map (Tok.map (atomMap (paramAt off params)))

/-- The placeholders read left to right are `offset + 1` to `offset + n`
for the `n` parameters, each once, and the parameter of each is the value
that belongs there. -/
def Aligned (off : ℕ) (sql : SqlText ℕ) (params : List Param) (meant : SqlText (Option Param)) :
    Prop :=
  sql.holes = List.range' (off + 1) params.length ∧ sql.map (paramAt off params) = meant

/-! ### The statements with their values in place -/

/-- The cursor condition: the columns' row against the cursor's values. -/
def cursorMeant (casing : Option CasingOverrides) (orderBy : Option (Record SortDir)) :
    List (String × Js) → List (WherePart Param)
  | [] => []
  | e :: es =>
    [.cursor ((e :: es).map fun e => camelToSnake e.1 casing) (orderDir orderBy e.1 != .desc)
      ((e :: es).map fun e => .value e.2)]

def selectMeant (options : SelectOptions) : SelectSql Param :=
  let condition := whereCondition options.casingOverrides options.where_
  { table := options.table
    columns := (options.columns.getD []).map fun col => buildColumnRef col options.casingOverrides
    withCount := options.withCount
    wheres :=
      (if condition.isEmpty then [] else [.condition condition]) ++
        cursorMeant options.casingOverrides options.orderBy
          ((options.cursor.map Record.entries).getD [])
    orderBy := buildOrderBy options.casingOverrides options.orderBy options.cursor
    limit := (options.take.orElse fun _ => options.limit).map fun n => .value (.num n)
    offset := options.offset.map fun n => .value (.num n) }

/-- The fragment an expression builds for a column. -/
def fragmentOf (key : String) (build : SqlFragment → SqlFragment) : SqlFragment :=
  build ⟨quoted (camelToSnake key none), []⟩

/-- An assignment with its values in place; a fragment's `$k` is the
`k`-th of the fragment's own parameters. -/
def setMeant (nowColumns : List String) (dialect : Dialect) (key : String) :
    SetValue → SetClause (Option Param)
  | .expr build =>
    let fragment := fragmentOf key build
    ⟨camelToSnake key none,
      (scanParams fragment.sql).map (paramAt 0 (fragment.params.map .value))⟩
  | .param v =>
    ⟨camelToSnake key none,
      if nowColumns.contains key && isNowSentinel v then [.text dialect.now] else [.hole (some v)]⟩

/-- The number of values an assignment contributes. -/
def setArity (nowColumns : List String) (key : String) : SetValue → ℕ
  | .expr build => (fragmentOf key build).params.length
  | .param v => if nowColumns.contains key && isNowSentinel v then 0 else 1

def updateMeant (options : UpdateOptions) (dialect : Dialect) : UpdateSql (Option Param) :=
  let condition := (options.where_.map fun f => whereCondition none (some f)).getD []
  { table := options.table
    sets := options.data.entries.map fun (key, v) => setMeant options.nowColumns dialect key v
    where_ :=
      if condition.isEmpty then none else some (condition.map (Tok.map (atomMap some)))
    returning := options.returning }

/-- Each assignment has one placeholder for each value it contributes. -/
def OwnPlaceholders (options : UpdateOptions) (sql : UpdateSql ℕ) : Prop :=
  sql.sets.map (fun s => s.value.holes.length)
    = options.data.entries.map fun (key, v) => setArity options.nowColumns key v

/-- The values a fragment's `$k` stand for, left to right, are exactly
its parameters. -/
def FragmentInOrder (fragment : SqlFragment) : Prop :=
  (scanParams fragment.sql).holes.map (paramAt 0 (fragment.params.map .value))
    = fragment.params.map fun v => some (.value v)

def ValueInOrder (key : String) : SetValue → Prop
  | .param _ => True
  | .expr build => FragmentInOrder (fragmentOf key build)

end Vertz.Spec
