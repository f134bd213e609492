import Vertz.Lib.Record

/-!
# `Vertz.Db.Sql.Casing`: camelCase and snake_case

`camelToSnake` runs two global replacements over the identifier and
lowercases the result: an underscore before the last capital of a run
that is followed by a small letter, and an underscore between a small
letter or digit and a capital. Neither replacement's matches overlap,
and the underscores of the first open no match of the second, so both
together are one pass that looks at the letters around each capital.
-/

namespace Vertz.Db.Sql

open Vertz.Lib

/-- Custom casing conversions, camelCase to snake_case. -/
abbrev CasingOverrides := Record String

def isUpper (c : Char) : Bool := 'A' ≤ c && c ≤ 'Z'

def isLower (c : Char) : Bool := 'a' ≤ c && c ≤ 'z'

def isDigit (c : Char) : Bool := '0' ≤ c && c ≤ '9'

/-- Whether an underscore goes between `prev` and the capital `c`. -/
def wordBoundary (prev : Option Char) (c : Char) (next : Option Char) : Bool :=
  isUpper c &&
    match prev with
    | none => false
    | some p => isLower p || isDigit p || (isUpper p && next.any isLower)

def snakeChars (prev : Option Char) : List Char → List Char
  | [] => []
  | c :: cs =>
    if wordBoundary prev c cs.head? then '_' :: c.toLower :: snakeChars (some c) cs
    else c.toLower :: snakeChars (some c) cs

def camelToSnake (str : String) (overrides : Option CasingOverrides) : String :=
  if str = "" then str
  else
    match overrides.bind fun o => o.get? str with
    | some snake => snake
    | none => String.ofList (snakeChars none str.toList)

example : camelToSnake "getHTTPSUrl" none = "get_https_url" := by decide

def isLetter (c : Char) : Bool := isUpper c || isLower c

/-- A match of `snakeToCamel` is a letter or digit, an underscore and a
letter; the next match starts behind it. -/
def camelChars : List Char → List Char
  | p :: '_' :: c :: cs =>
    if (isLetter p || isDigit p) && isLetter c then p :: c.toUpper :: camelChars cs
    else p :: camelChars ('_' :: c :: cs)
  | c :: cs => c :: camelChars cs
  | [] => []

def snakeToCamel (str : String) (overrides : Option CasingOverrides) : String :=
  if str = "" then str
  else
    match overrides.bind fun o => o.entries.find? fun e => e.2 == str with
    | some (camelKey, _) => camelKey
    | none => String.ofList (camelChars str.toList)

example : snakeToCamel "created_at_timestamp" none = "createdAtTimestamp" := by decide

end Vertz.Db.Sql
