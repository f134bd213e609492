import Vertz.Js

/-!
# `Vertz.Schema.Coerce`: form fields as nested values

A form is a list of fields. The dots of a field name are a path into the
object that is built, which `setNestedValue` walks with `in`. An object
also has the names of its prototypes, so that the walk can come to objects
that all code of the realm shares: those are `Realm`'s business. A walk
that would write to one of them, or that throws, is a `Fault`, and nothing
is followed behind it.

Every container of the result is stored in one place only, so the result
is a tree. The order of index keys is not modelled.
-/

namespace Vertz.Schema

open Vertz.Lib

/-- A number, as `Number(text)` returns it. -/
inductive JsNumber where
  | nan
  | infinite (negative : Bool)
  | finite (q : ℚ)
  deriving DecidableEq

/-- Containers that the decoding creates, and what it puts into them. -/
inductive Decoded where
  | str (s : String)
  | num (n : JsNumber)
  | bool (b : Bool)
  | object (entries : List (String × Decoded))
  /-- An array has its elements under their indices. -/
  | array (length : ℕ) (entries : List (String × Decoded))

/-- What is not a container of the result: an object of the realm, or a
primitive value. -/
inductive Outside (S : Type) where
  | object (s : S)
  | primitive

inductive Property (S : Type) where
  | absent
  | found (value : Outside S)
  /-- A getter that throws. -/
  | throws

/-- The objects that the code of a program shares, and the properties they
and their prototypes have. -/
structure Realm (S : Type) where
  objectPrototype : String → Property S
  arrayPrototype : String → Property S
  property : S → String → Property S
  /-- `Number(text)`. -/
  toNumber : String → JsNumber

inductive Fault (S : Type) where
  /-- A property of a shared object is assigned. -/
  | write (object : S) (name : String)
  | typeError
  | rangeError

def DANGEROUS_KEYS : List String := ["__proto__", "constructor", "prototype"]

def isDangerous (segment : String) : Bool := DANGEROUS_KEYS.contains segment

/-- `dotPath.split('.')`. -/
def splitDots (dotPath : String) : List String := (dotPath.toList.splitOn '.').map String.ofList

/-- `/^\d+$/.test(segment)`. -/
def isDigits (segment : String) : Bool :=
  !segment.toList.isEmpty && segment.toList.all fun c => '0' ≤ c && c ≤ '9'

/-- The index a property name of an array stands for. -/
def arrayIndex? (name : String) : Option ℕ :=
  let n := name.toList.foldl (fun n c => 10 * n + (c.toNat - '0'.toNat)) 0
  if isDigits name && toString n == name && n < 2 ^ 32 - 1 then some n else none

namespace Decoded

/-- What is created for a segment that is missing. -/
def createFor (nextSegment : String) : Decoded :=
  if isDigits nextSegment then .array 0 [] else .object []

def isContainer : Decoded → Bool
  | .object _ => true
  | .array _ _ => true
  | _ => false

/-- `current[segment] = child`, apart from the length of an array. -/
def put (current : Decoded) (segment : String) (child : Decoded) : Decoded :=
  match current with
  | .object entries => .object (Record.put segment child entries)
  | .array length entries =>
    .array (((arrayIndex? segment).map fun i => max length (i + 1)).getD length)
      (Record.put segment child entries)
  | node => node

/-- The own property `segment`. -/
def own? (current : Decoded) (segment : String) : Option Decoded :=
  match current with
  | .object entries => Record.lookup segment entries
  | .array length entries =>
    if segment = "length" then some (.num (.finite length)) else Record.lookup segment entries
  | _ => none

end Decoded

section Walk

variable {S : Type} (realm : Realm S)

/-- The number that a value assigned to `length` stands for, when it is a
length. -/
def lengthOf (value : Decoded) : Option ℕ :=
  let number : JsNumber :=
    match value with
    | .str s => realm.toNumber s
    | .num n => n
    | .bool b => .finite (if b then 1 else 0)
    | _ => .nan
  match number with
  | .finite q => if q.den = 1 ∧ 0 ≤ q.num ∧ q.num < 2 ^ 32 then some q.num.toNat else none
  | _ => none

/-- `current[lastSegment] = value`. -/
def assignLast (current : Decoded) (lastSegment : String) (value : Decoded) :
    Except (Fault S) Decoded :=
  match current with
  | .array length entries =>
    if lastSegment = "length" then
      match lengthOf realm value with
      | none => .error .rangeError
      | some newLength =>
        .ok (.array newLength
          (entries.filter fun e => (arrayIndex? e.1).all (· < newLength)))
    else .ok ((Decoded.array length entries).put lastSegment value)
  | .object entries => .ok ((Decoded.object entries).put lastSegment value)
  | _ => .error .typeError

/-- What an object or array finds under a name that it does not have. -/
def inheritedBy (node : Decoded) (segment : String) : Property S :=
  match node with
  | .object _ => realm.objectPrototype segment
  | .array _ _ => realm.arrayPrototype segment
  -- `in` takes no primitive value
  | _ => .throws

def propertyOf (outside : Outside S) (segment : String) : Property S :=
  match outside with
  | .object s => realm.property s segment
  | .primitive => .throws

/-- An assignment outside the containers. -/
def assignOutside (outside : Outside S) (segment : String) : Except (Fault S) Unit :=
  match outside with
  | .object s => .error (.write s segment)
  | .primitive => .error .typeError

/-- The rest of a walk that has left the containers. -/
def walkOutside : Outside S → List String → Except (Fault S) Unit
  | _, [] => .ok ()
  | current, [lastSegment] =>
    if isDangerous lastSegment then .ok () else assignOutside current lastSegment
  | current, segment :: nextSegment :: rest =>
    if isDangerous segment then .ok ()
    else
      match propertyOf realm current segment with
      | .absent => assignOutside current segment
      | .found value => walkOutside value (nextSegment :: rest)
      | .throws => .error .typeError

/-- Set a value at a path of segments. -/
def setNestedValue (value : Decoded) : Decoded → List String → Except (Fault S) Decoded
  | current, [] => .ok current
  | current, [lastSegment] =>
    if isDangerous lastSegment then .ok current else assignLast realm current lastSegment value
  | current, segment :: nextSegment :: rest =>
    if isDangerous segment then .ok current
    else
      match current.own? segment with
      | some child =>
        if child.isContainer then
          (setNestedValue value child (nextSegment :: rest)).map (current.put segment)
        else (walkOutside realm .primitive (nextSegment :: rest)).map fun _ => current
      | none =>
        match inheritedBy realm current segment with
        | .absent =>
          (setNestedValue value (.createFor nextSegment) (nextSegment :: rest)).map
            (current.put segment)
        | .found outside =>
          (walkOutside realm outside (nextSegment :: rest)).map fun _ => current
        | .throws => .error .typeError

/-! ### Fields -/

/-- The value of a field. -/
inductive FormValue where
  | text (s : String)
  | file
  deriving DecidableEq

abbrev FormFields := List (String × FormValue)

/-- Store a field, at its path when names are `nested`. Under `__proto__`
a primitive value is not stored. -/
def setField (nested : Bool) (result : Decoded) (key : String) (value : Decoded) :
    Except (Fault S) Decoded :=
  if nested && key.toList.contains '.' then setNestedValue realm value result (splitDots key)
  else .ok (if key = "__proto__" then result else result.put key value)

/-- One turn of the loop over the fields; files are skipped. -/
def decodeField (convert : String → Decoded) (nested : Bool) (result : Decoded)
    (field : String × FormValue) : Except (Fault S) Decoded :=
  match field.2 with
  | .text value => setField realm nested result field.1 (convert value)
  | .file => .ok result

def formLikeToNestedObject (source : FormFields) : Except (Fault S) Decoded :=
  source.foldlM (decodeField realm .str true) (.object [])

end Walk

end Vertz.Schema
