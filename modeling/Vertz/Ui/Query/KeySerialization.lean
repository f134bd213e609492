import Mathlib.Data.List.Sort
import Vertz.Lib.Json
import Vertz.Schema.Coerce

/-!
# `Vertz.Ui.Query.KeySerialization`: query keys as cache keys

A query key is a string or a tuple of values. A string is its own cache
key. Of a tuple, `JSON.stringify` makes a document, with the entries of
each object sorted by the replacer, and writes it.

Numbers are real numbers, `NaN` and the infinities; `-0` is `0`.
-/

namespace Vertz.Ui.Query

open Vertz.Lib.Json
open Vertz.Schema (JsNumber)

/-- Values that have no JSON text. -/
inductive Unsupported where
  | function
  | symbol
  | bigint
  | classInstance
  deriving DecidableEq

inductive KeyValue where
  | undefined
  | null
  | bool (b : Bool)
  | num (n : JsNumber)
  | str (s : Text)
  | arr (items : List KeyValue)
  | obj (entries : List (Text × KeyValue))
  | unsupported (kind : Unsupported)

mutual

/-- No object has a key twice. -/
def KeyValue.distinct : KeyValue → Bool
  | .arr items => distinctItems items
  | .obj entries => decide (entries.map Prod.fst).Nodup && distinctEntries entries
  | _ => true

def distinctItems : List KeyValue → Bool
  | [] => true
  | x :: xs => x.distinct && distinctItems xs

def distinctEntries : List (Text × KeyValue) → Bool
  | [] => true
  | e :: es => e.2.distinct && distinctEntries es

end

structure TupleKey where
  items : List KeyValue
  distinct : distinctItems items = true

inductive QueryKey where
  | string (s : Text)
  | tuple (t : TupleKey)

/-! ### Validation -/

def Unsupported.kind : Unsupported → String
  | .function => "function"
  | .symbol => "symbol"
  | .bigint => "bigint"
  | .classInstance => "class instance"

/-- The message of the thrown error. -/
def throwUnsupported (value : Unsupported) (path : List Text) : Text :=
  ofString "serializeQueryKey: unsupported value at " ++ [46].intercalate path ++
    ofString (" — got " ++ value.kind ++ ". " ++
      "Tuple keys must contain only strings, numbers, booleans, null, plain objects, and arrays.")

mutual

def validateSerializable : KeyValue → List Text → Except Text Unit
  | .arr items, path => validateItems items 0 path
  | .obj entries, path => validateEntries entries path
  | .unsupported value, path => .error (throwUnsupported value path)
  | _, _ => .ok ()

def validateItems : List KeyValue → ℕ → List Text → Except Text Unit
  | [], _, _ => .ok ()
  | x :: xs, i, path => do
      validateSerializable x (path ++ [ofString (toString i)])
      validateItems xs (i + 1) path

def validateEntries : List (Text × KeyValue) → List Text → Except Text Unit
  | [], _ => .ok ()
  | e :: es, path => do
      validateSerializable e.2 (path ++ [e.1])
      validateEntries es path

end

/-- The loop over the tuple. -/
def validateTuple : List KeyValue → ℕ → Except Text Unit
  | [], _ => .ok ()
  | x :: xs, i => do
      validateSerializable x [ofString ("index " ++ toString i)]
      validateTuple xs (i + 1)

/-! ### Serialization -/

/-- The index that a property name stands for. -/
def indexOf? (key : Text) : Option ℕ :=
  let n := key.foldl (fun n c => 10 * n + (c.val - 48)) 0
  if ofString (toString n) = key ∧ n < 2 ^ 32 - 1 then some n else none

/-- The entries of an object whose properties were set in the order of the
sorted keys: indices are enumerated first, and setting `__proto__` adds no
property. -/
def sortObjectKeys {α : Type} (entries : List (Text × α)) : List (Text × α) :=
  let sorted := (entries.insertionSort fun e f => e.1 ≤ f.1).filter
    fun e => decide (e.1 ≠ ofString "__proto__")
  (sorted.filter fun e => (indexOf? e.1).isSome).insertionSort
      (fun e f => (indexOf? e.1).getD 0 ≤ (indexOf? f.1).getD 0) ++
    sorted.filter fun e => (indexOf? e.1).isNone

mutual

/-- What `JSON.stringify` writes for a value; nothing for `undefined`. -/
def document : KeyValue → Option Doc
  | .undefined => none
  | .null => some .null
  | .bool b => some (.bool b)
  | .num (.finite q) => some (.num q)
  | .num _ => some .null
  | .str s => some (.str s)
  | .arr items => some (.arr (documentItems items))
  | .obj entries =>
    some (.obj ((sortObjectKeys (documentEntries entries)).filterMap fun e =>
      e.2.map fun d => (e.1, d)))
  | .unsupported _ => none

/-- The items of an array; one that has no text is written as `null`. -/
def documentItems : List KeyValue → List Doc
  | [] => []
  | x :: xs => (document x).getD .null :: documentItems xs

def documentEntries : List (Text × KeyValue) → List (Text × Option Doc)
  | [] => []
  | e :: es => (e.1, document e.2) :: documentEntries es

end

def serializeQueryKey (number : NumberText) : QueryKey → Except Text Text
  | .string s => .ok s
  | .tuple t => do
      validateTuple t.items 0
      return Doc.text number (.arr (documentItems t.items))

end Vertz.Ui.Query
