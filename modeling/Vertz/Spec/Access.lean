import Vertz.Server.Entity.AccessEnforcer
import Vertz.Db.Adapter

/-!
# `Vertz.Spec.Access`: the rows a where object selects

A where object goes through the builder and the database before it
selects anything: the builder has to take every entry, the columns have
to exist and the text has to be well formed, and then the row has to
match. `selects` says all of it about one row.
-/

namespace Vertz.Spec

open Vertz.Lib
open Vertz.Db
open Vertz.Db.Sql

/-- The builder takes the entry. -/
def entryAccepted (dialect : Dialect) (e : String × Js) : Prop :=
  ∃ b, buildField none dialect e.1 e.2 0 = .ok b

/-- The entry only names columns of the table. -/
def entryKnown (columns : List String) (e : String × Js) : Prop :=
  (fieldConditions none e.1 e.2).all (knownAtom columns) = true

/-- A filter the database runs, and that the row matches. -/
structure Selects (engine : Engine) (dialect : Dialect) (columns : List String) (row : SqlRow)
    (f : WhereFilter) : Prop where
  accepted : ∀ e ∈ allEntries f, entryAccepted dialect e
  known : ∀ e ∈ allEntries f, entryKnown columns e
  readable : wellFormed f = true
  value : filterValue (entryValue none (sqlAtom engine row)) f = .yes

/-- A where object the database runs, and that the row matches. -/
def selects (engine : Engine) (dialect : Dialect) (columns : List String) (where_ : Record Js)
    (row : SqlRow) : Prop :=
  ∃ f, whereFilter where_ = .ok f ∧ Selects engine dialect columns row f

/-- The object with one entry. -/
def only (key : String) (value : Js) : Record Js := .ofList [(key, value)]

/-- A key that names the column of its own name. -/
def plainKey (key : String) : Bool :=
  key != "OR" && key != "AND" && key != "NOT" && (splitArrow [] key.toList).length == 1

end Vertz.Spec

/-!
## What an access rule asks of a row

A rule tree conjoins `where` conditions through nested `all`s; what else
it conjoins are its remaining rules. The conditions are read twice: by
`===` on the row in memory, and by the database as a where object. These
definitions say when the two readings of a condition are one.
-/

namespace Vertz.Spec

open Vertz.Lib
open Vertz.Db
open Vertz.Db.Sql
open Vertz.Server.Entity

/-- A table whose column keys a where object can name one by one, and
under which rows come back. -/
structure EntityTable where
  table : TableDef
  plain : ∀ key ∈ table.columns.keys, plainKey key = true
  camel : ∀ key ∈ table.columns.keys, snakeToCamel key none = key
  distinct : (sqlColumns table).Nodup

/-- A row as a table holds it: an absent value is `NULL`. -/
structure StoredRow where
  cells : SqlRow
  defined : ∀ column, cells column ≠ .undefined

/-- A row in memory, with all its columns. -/
def EntityTable.record (t : EntityTable) (row : SqlRow) : Record Js :=
  mapRow (getColumnNames t.table) row

/-! ### The parts of a rule -/

mutual

/-- The conditions a rule conjoins, resolved for the request. -/
def conjoined (ctx : BaseContext) : AccessRule → List (String × Js)
  | .where_ conditions => conditions.entries.map fun e => (e.1, resolveCondition ctx e.2)
  | .all rules => conjoinedAll ctx rules
  | _ => []

def conjoinedAll (ctx : BaseContext) : List AccessRule → List (String × Js)
  | [] => []
  | sub :: rest => conjoined ctx sub ++ conjoinedAll ctx rest

end

mutual

/-- The rules a rule conjoins beside its conditions. -/
def remaining : AccessRule → List AccessRule
  | .where_ _ => []
  | .all rules => remainingAll rules
  | rule => [rule]

def remainingAll : List AccessRule → List AccessRule
  | [] => []
  | sub :: rest => remaining sub ++ remainingAll rest

end

/-! ### The two readings -/

/-- A request for an operation: its rules, who makes it, and what else
the rules are evaluated with. -/
structure AccessRequest where
  operation : String
  rules : AccessRules
  ctx : BaseContext
  options : EnforceAccessOptions

/-- The rule of the operation, when it has one. -/
def AccessRequest.rule (r : AccessRequest) : Option AccessRule :=
  match r.rules.get? r.operation with
  | some (.rule rule) => some rule
  | _ => none

/-- The conditions that are pushed into the query. -/
def AccessRequest.pushed (r : AccessRequest) : Record Js :=
  (extractWhereConditions r.operation r.rules r.ctx).getD .empty

/-- The database selects the row by the pushed conditions, and the rest of
the rule allows it. -/
def PushedDown (engine : Engine) (dialect : Dialect) (t : EntityTable) (r : AccessRequest)
    (row : SqlRow) : Prop :=
  selects engine dialect (sqlColumns t.table) r.pushed row ∧
    enforceAccess r.operation r.rules r.ctx (t.record row) r.options true = .ok ()

/-- The whole rule, evaluated on the row in memory, allows it. -/
def Evaluated (t : EntityTable) (r : AccessRequest) (row : SqlRow) : Prop :=
  enforceAccess r.operation r.rules r.ctx (t.record row) r.options false = .ok ()

/-! ### Where they are one -/

/-- A value the database compares as `===` does. -/
def comparable : Js → Bool
  | .null => true
  | .bool _ => true
  | .num _ => true
  | .str _ => true
  | _ => false

/-- A condition on a column that is compared alike; or `undefined` under
a logical key, which both readings ignore. -/
def comparedAlike (table : TableDef) : String × Js → Bool
  | (key, .undefined) => key == "OR" || key == "AND" || key == "NOT"
  | (key, value) => table.columns.keys.contains key && comparable value

/-- The conditions are compared alike, and no two ask one key for
different values. -/
structure Agreeing (table : TableDef) (conditions : List (String × Js)) : Prop where
  alike : ∀ e ∈ conditions, comparedAlike table e = true
  consistent : ∀ e ∈ conditions, ∀ e' ∈ conditions, e.1 = e'.1 → e.2 = e'.2

/-- Whatever row the remaining rules allow fails the conditions, in both
readings. -/
def Unmeetable (engine : Engine) (dialect : Dialect) (t : EntityTable) (r : AccessRequest)
    (rule : AccessRule) : Prop :=
  ∀ row : StoredRow,
    (∀ sub ∈ remaining rule,
      evaluateRule r.operation r.ctx (t.record row.cells) r.options sub = .ok ()) →
    ¬ selects engine dialect (sqlColumns t.table) r.pushed row.cells ∧
      ∃ e ∈ conjoined r.ctx rule,
        Js.strictEq (rowField (t.record row.cells) e.1) e.2 = false

end Vertz.Spec
