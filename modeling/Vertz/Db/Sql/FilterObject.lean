import Vertz.Db.Sql.Where

/-!
# `Vertz.Db.Sql.FilterObject`: plain objects as filters

The query layer hands the builder plain objects. `toFilter` is what the
builder finds in one: the entries other than `OR`, `AND` and `NOT` in
their order, the operands of `OR` and `AND`, and the filter under `NOT`.

What is not an object or a list is read the way JavaScript reads it: the
entries of a text or an array are its characters or elements under their
indices, a number or a boolean has none, and a text under `OR` or `AND`
is the list of its characters. What cannot be iterated is a `TypeError`.
-/

namespace Vertz.Db.Sql

open Vertz.Lib

/-- The entries of an array or a text: its elements under their indices. -/
def indexEntries (vs : List Js) : List (String × Js) :=
  vs.zipIdx.map fun (v, i) => (toString i, v)

/-- A filter without logical keys. -/
def fieldsOnly (es : List (String × Js)) : WhereFilter :=
  .mk (.ofList es) .absent .absent .absent

def chars (s : String) : List Js := s.toList.map fun c => .str (String.ofList [c])

/-- What the loop over a filter object's keys finds. -/
structure FilterParts where
  fields : List (String × Js)
  OR : Slot (List WhereFilter)
  AND : Slot (List WhereFilter)
  NOT : Slot WhereFilter

def FilterParts.toFilter (p : FilterParts) : WhereFilter := .mk (.ofList p.fields) p.OR p.AND p.NOT

mutual

def toFilter : Js → Except String WhereFilter
  | .undefined => .error "TypeError: Cannot convert undefined or null to object"
  | .null => .error "TypeError: Cannot convert undefined or null to object"
  | .bool _ => .ok (fieldsOnly [])
  | .num _ => .ok (fieldsOnly [])
  | .str s => .ok (fieldsOnly (indexEntries (chars s)))
  | .arr vs => .ok (fieldsOnly (indexEntries vs))
  | .obj entries => (toParts entries).map FilterParts.toFilter

/-- The entries of a filter object, by key. -/
def toParts : List (String × Js) → Except String FilterParts
  | [] => .ok ⟨[], .absent, .absent, .absent⟩
  | (key, value) :: es =>
    (toParts es).bind fun rest =>
      if key = "OR" then (toOperands value).map fun s => { rest with OR := s }
      else if key = "AND" then (toOperands value).map fun s => { rest with AND := s }
      else if key = "NOT" then (toNegated value).map fun s => { rest with NOT := s }
      else .ok { rest with fields := (key, value) :: rest.fields }

/-- The operands of `OR` or `AND`: its length is asked first, then it is
iterated. -/
def toOperands : Js → Except String (Slot (List WhereFilter))
  | .undefined => .ok .undefined
  | .null => .error "TypeError: Cannot read properties of null (reading 'length')"
  | .str s => .ok (.value ((chars s).map fun c => fieldsOnly (indexEntries [c])))
  | .arr vs => (toFilters vs).map .value
  | .obj entries =>
    match Record.lookup "length" entries with
    | some (.num 0) => .ok (.value [])
    | _ => .error "TypeError: filter is not iterable"
  | _ => .error "TypeError: filter is not iterable"

def toNegated : Js → Except String (Slot WhereFilter)
  | .undefined => .ok .undefined
  | v => (toFilter v).map .value

def toFilters : List Js → Except String (List WhereFilter)
  | [] => .ok []
  | v :: vs => (toFilter v).bind fun f => (toFilters vs).map fun fs => f :: fs

end

/-- A where object as a filter. -/
def whereFilter (where_ : Record Js) : Except String WhereFilter := toFilter (.obj where_.entries)

end Vertz.Db.Sql
