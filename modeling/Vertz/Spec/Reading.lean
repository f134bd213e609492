import Vertz.Spec.Conditions

/-!
# `Vertz.Spec.Reading`: the recursive reading of a filter tree

The truth value of a filter from the truth values of its atomic
conditions: entries are conjoined, `OR` is a disjunction, `AND` a
conjunction, `NOT` a negation; the empty `OR` is false, the empty `AND`
true, and what is missing imposes nothing.

Beside it stand the shape predicates of a filter tree that decide what
becomes of it as text: whether it contributes a clause at all, whether
it is well formed, and whether any condition occurs in it.
-/

namespace Vertz.Spec

open Vertz.Lib
open Vertz.Db.Sql

/-- The value of an atom; constants are what they say. -/
def atomValue {H : Type} (ρ : Atom H → Tri) : Atom H → Tri
  | .const b => Tri.ofBool b
  | a => ρ a

/-- The value of a field entry, from its conditions. -/
def entryValue (overrides : Option CasingOverrides) (ρ : Atom Param → Tri) (e : String × Js) :
    Tri :=
  Tri.all ((fieldConditions overrides e.1 e.2).map (atomValue ρ))

mutual

/-- The value of a filter from the values of its field entries. -/
def filterValue (E : String × Js → Tri) : WhereFilter → Tri
  | .mk fields OR AND NOT =>
    Tri.and (Tri.all (fields.entries.map E))
      (Tri.and (logicalValue E Tri.any OR) (Tri.and (logicalValue E Tri.all AND) (notValue E NOT)))

/-- The value of a logical list under its connective. -/
def logicalValue (E : String × Js → Tri) (connective : List Tri → Tri) :
    Slot (List WhereFilter) → Tri
  | .absent => .yes
  | .undefined => .yes
  | .value fs => connective (filterValues E fs)

def notValue (E : String × Js → Tri) : Slot WhereFilter → Tri
  | .absent => .yes
  | .undefined => .yes
  | .value f => Tri.neg (filterValue E f)

def filterValues (E : String × Js → Tri) : List WhereFilter → List Tri
  | [] => []
  | f :: fs => filterValue E f :: filterValues E fs

end

/-! ### The entries of a filter -/

mutual

/-- The field entries of a filter, at any depth. -/
def allEntries : WhereFilter → List (String × Js)
  | .mk fields OR AND NOT =>
    fields.entries ++ allEntriesList OR ++ allEntriesList AND ++ allEntriesNot NOT

def allEntriesList : Slot (List WhereFilter) → List (String × Js)
  | .absent => []
  | .undefined => []
  | .value fs => allEntriesAll fs

def allEntriesNot : Slot WhereFilter → List (String × Js)
  | .absent => []
  | .undefined => []
  | .value f => allEntries f

def allEntriesAll : List WhereFilter → List (String × Js)
  | [] => []
  | f :: fs => allEntries f ++ allEntriesAll fs

end

mutual

/-- The field entries outside every `NOT`. -/
def positiveEntries : WhereFilter → List (String × Js)
  | .mk fields OR AND _ => fields.entries ++ positiveEntriesList OR ++ positiveEntriesList AND

def positiveEntriesList : Slot (List WhereFilter) → List (String × Js)
  | .absent => []
  | .undefined => []
  | .value fs => positiveEntriesAll fs

def positiveEntriesAll : List WhereFilter → List (String × Js)
  | [] => []
  | f :: fs => positiveEntries f ++ positiveEntriesAll fs

end

mutual

/-- The field entries inside some `NOT`. -/
def negatedEntries : WhereFilter → List (String × Js)
  | .mk _ OR AND NOT => negatedEntriesList OR ++ negatedEntriesList AND ++ allEntriesNot NOT

def negatedEntriesList : Slot (List WhereFilter) → List (String × Js)
  | .absent => []
  | .undefined => []
  | .value fs => negatedEntriesAll fs

def negatedEntriesAll : List WhereFilter → List (String × Js)
  | [] => []
  | f :: fs => negatedEntries f ++ negatedEntriesAll fs

end

/-! ### The shape of a filter -/

def hasValue {α : Type} : Slot α → Bool
  | .value _ => true
  | _ => false

/-- Whether a field entry has a condition. -/
def entryContributes (e : String × Js) : Bool := !(fieldConditions none e.1 e.2).isEmpty

/-- Whether a filter has a condition or a logical key of its own. -/
def contributes : WhereFilter → Bool
  | .mk fields OR AND NOT =>
    fields.entries.any entryContributes || hasValue OR || hasValue AND || hasValue NOT

mutual

/-- No filter under a logical key is vacuous, at any depth. -/
def wellFormed : WhereFilter → Bool
  | .mk _ OR AND NOT => wellFormedList OR && wellFormedList AND && wellFormedNot NOT

def wellFormedList : Slot (List WhereFilter) → Bool
  | .absent => true
  | .undefined => true
  | .value fs => wellFormedAll fs

def wellFormedNot : Slot WhereFilter → Bool
  | .absent => true
  | .undefined => true
  | .value f => contributes f && wellFormed f

def wellFormedAll : List WhereFilter → Bool
  | [] => true
  | f :: fs => contributes f && wellFormed f && wellFormedAll fs

end

mutual

/-- Some condition occurs in the filter, at any depth; an empty logical
list is one. -/
def hasCondition : WhereFilter → Bool
  | .mk fields OR AND NOT =>
    fields.entries.any entryContributes || hasConditionList OR || hasConditionList AND ||
      hasConditionNot NOT

def hasConditionList : Slot (List WhereFilter) → Bool
  | .absent => false
  | .undefined => false
  | .value [] => true
  | .value (f :: fs) => hasConditionAny (f :: fs)

def hasConditionNot : Slot WhereFilter → Bool
  | .absent => false
  | .undefined => false
  | .value f => hasCondition f

def hasConditionAny : List WhereFilter → Bool
  | [] => false
  | f :: fs => hasCondition f || hasConditionAny fs

end

/-- The filter reads as true whatever its atomic conditions come to. -/
def vacuouslyTrue (f : WhereFilter) : Bool :=
  filterValue (entryValue none fun _ => .unknown) f == .yes

end Vertz.Spec

/-!
## Guarded mass writes

When the WHERE of an UPDATE or DELETE restricts the rows it touches.
-/

namespace Vertz.Spec

open Vertz.Lib
open Vertz.Lib.Condition
open Vertz.Db.Sql

/-- The condition is satisfied whatever its column comparisons come to. -/
def Unconditional (ts : Clause) : Prop :=
  ∃ c, parse ts = some c ∧ ∀ ρ : Atom ℕ → Tri, Cond.eval (atomValue ρ) c = .yes

/-- There is a WHERE with at least one condition in it, and it is not
satisfied unconditionally. -/
def Guarded (where_ : Option Clause) : Prop :=
  ∃ ts, where_ = some ts ∧ (∃ a, Tok.atom a ∈ ts) ∧ ¬ Unconditional ts

/-- Some condition occurs in the filter, and a filter that reaches the
database as a well-formed condition does not read as true by its logical
keys and empty sets alone. -/
def Restricts (f : WhereFilter) : Prop :=
  hasCondition f = true ∧ ¬ (wellFormed f = true ∧ vacuouslyTrue f = true)

end Vertz.Spec
