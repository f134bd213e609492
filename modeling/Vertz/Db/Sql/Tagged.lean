import Vertz.Js
import Vertz.Db.Sql.Text

/-!
# `Vertz.Db.Sql.Tagged`: SQL fragments

A fragment is SQL text that names its own parameters as `$1`, `$2`, ….
`scanParams` finds what the pattern `\$(\d+)` matches in it;
`renumberParamsWithDialect` writes the `k`-th match, whatever number it
carries, as placeholder `offset + k`.

A fragment is made by a tagged template or by `sql.raw`. A template
writes each value as the next placeholder, and a nested fragment as its
text with the placeholders renumbered behind those before it.
-/

namespace Vertz.Db.Sql

structure SqlFragment where
  sql : String
  params : List Js

/-- Where the pattern matcher is: in plain text, behind a `$`, or inside
the digits of a match. -/
inductive ScanState where
  | text
  | dollar
  | digits (n : ℕ)

def digitValue (c : Char) : ℕ := c.toNat - '0'.toNat

/-- The text of a fragment with its `$n` as placeholders. -/
def scanFrom : ScanState → List Char → SqlText ℕ
  | .text, [] => []
  | .dollar, [] => [.text "$"]
  | .digits n, [] => [.hole n]
  | .text, c :: cs =>
    if c = '$' then scanFrom .dollar cs
    else .text (String.singleton c) :: scanFrom .text cs
  | .dollar, c :: cs =>
    if c.isDigit then scanFrom (.digits (digitValue c)) cs
    else if c = '$' then .text "$" :: scanFrom .dollar cs
    else .text "$" :: .text (String.singleton c) :: scanFrom .text cs
  | .digits n, c :: cs =>
    if c.isDigit then scanFrom (.digits (10 * n + digitValue c)) cs
    else if c = '$' then .hole n :: scanFrom .dollar cs
    else .hole n :: .text (String.singleton c) :: scanFrom .text cs

def scanParams (sql : String) : SqlText ℕ := scanFrom .text sql.toList

/-- Number the placeholders `counter + 1, counter + 2, …` left to
right. -/
def renumber {H : Type} (counter : ℕ) : SqlText H → SqlText ℕ
  | [] => []
  | .text s :: ps => .text s :: renumber counter ps
  | .hole _ :: ps => .hole (counter + 1) :: renumber (counter + 1) ps

def renumberParamsWithDialect (sql : String) (offset : ℕ) : SqlText ℕ :=
  renumber offset (scanParams sql)

example : (scanParams "a || $1 || '$12'").holes = [1, 12] := by decide

/-! ### Tagged templates -/

/-- `renumberParamsWithDialect` with `$n` placeholders, as text. -/
def renumberParams (sqlStr : String) (offset : ℕ) : String :=
  (renumberParamsWithDialect sqlStr offset).render postgresDialect

mutual

/-- `sql.raw(value)`, or a template: its first literal and the rest. -/
inductive SqlNode where
  | raw (value : String)
  | template (literal : String) (rest : SqlRest)

/-- What follows a literal: interpolated values and fragments, each with
the literal behind it. -/
inductive SqlRest where
  | nil
  | value (v : Js) (literal : String) (rest : SqlRest)
  | fragment (f : SqlNode) (literal : String) (rest : SqlRest)

end

mutual

def SqlNode.toFragment : SqlNode → SqlFragment
  | .raw value => ⟨value, []⟩
  | .template literal rest => sqlTag rest literal []

/-- The loop of `sqlTag`, with the text and the parameters so far. -/
def sqlTag : SqlRest → String → List Js → SqlFragment
  | .nil, sqlParts, allParams => ⟨sqlParts, allParams⟩
  | .value v literal rest, sqlParts, allParams =>
    let allParams := allParams ++ [v]
    sqlTag rest (sqlParts ++ ("$" ++ toString allParams.length) ++ literal) allParams
  | .fragment f literal rest, sqlParts, allParams =>
    let value := f.toFragment
    let renumbered := renumberParams value.sql allParams.length
    sqlTag rest (sqlParts ++ renumbered ++ literal) (allParams ++ value.params)

end

end Vertz.Db.Sql
