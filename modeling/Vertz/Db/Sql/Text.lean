import Mathlib.Data.List.Basic

/-!
# `Vertz.Db.Sql.Text`: SQL texts of the two dialects

## SQL dialects

The differences between SQL dialects the statement builders ask about:
how a parameter placeholder is written, the current-timestamp function,
and the two feature flags.
-/

namespace Vertz.Db

inductive DialectName where
  | postgres
  | sqlite
  deriving DecidableEq, Repr

structure Dialect where
  name : DialectName
  /-- The placeholder of the parameter with a 1-based index. -/
  param : Nat → String
  now : String
  supportsArrayOps : Bool
  supportsJsonbPath : Bool

def postgresDialect : Dialect where
  name := .postgres
  param index := "$" ++ toString index
  now := "NOW()"
  supportsArrayOps := true
  supportsJsonbPath := true

def sqliteDialect : Dialect where
  name := .sqlite
  param _ := "?"
  now := "datetime('now')"
  supportsArrayOps := false
  supportsJsonbPath := false

end Vertz.Db

/-!
## SQL text with placeholders

A statement's text is a list of pieces: literal text, and placeholders.
A placeholder of the emitted statement is the index it was written
with, so `SqlText ℕ` is what a builder returns; the same text with the
values in place of the placeholders is a `SqlText` over values.
-/

namespace Vertz.Db.Sql

/-- A piece of SQL text; a placeholder carries an `H`. -/
inductive Piece (H : Type) where
  | text (s : String)
  | hole (h : H)
  deriving DecidableEq, Repr

abbrev SqlText (H : Type) := List (Piece H)

variable {H K : Type}

def Piece.map (f : H → K) : Piece H → Piece K
  | .text s => .text s
  | .hole h => .hole (f h)

def Piece.hole? : Piece H → Option H
  | .text _ => none
  | .hole h => some h

/-- The placeholders of a text, left to right. -/
def SqlText.holes (sql : SqlText H) : List H := sql.filterMap Piece.hole?

def SqlText.map (f : H → K) (sql : SqlText H) : SqlText K := List.map (Piece.map f) sql

def Piece.render (d : Dialect) : Piece ℕ → String
  | .text s => s
  | .hole n => d.param n

/-- The statement as the driver receives it. -/
def SqlText.render (d : Dialect) (sql : SqlText ℕ) : String :=
  String.join (List.map (Piece.render d) sql)

/-- Texts joined by a separator. -/
def SqlText.join (sep : String) : List (SqlText H) → SqlText H
  | [] => []
  | [t] => t
  | t :: t' :: ts => t ++ .text sep :: SqlText.join sep (t' :: ts)

@[simp] theorem holes_nil : SqlText.holes ([] : SqlText H) = [] := rfl

@[simp] theorem holes_text (s : String) (sql : SqlText H) :
    SqlText.holes (.text s :: sql) = SqlText.holes sql := rfl

@[simp] theorem holes_hole (h : H) (sql : SqlText H) :
    SqlText.holes (.hole h :: sql) = h :: SqlText.holes sql := rfl

@[simp] theorem holes_append (a b : SqlText H) :
    SqlText.holes (a ++ b) = SqlText.holes a ++ SqlText.holes b :=
  List.filterMap_append

variable (f : H → K)

@[simp] theorem map_text (s : String) (sql : SqlText H) :
    SqlText.map f (.text s :: sql) = .text s :: SqlText.map f sql := rfl

@[simp] theorem map_hole (h : H) (sql : SqlText H) :
    SqlText.map f (.hole h :: sql) = .hole (f h) :: SqlText.map f sql := rfl

@[simp] theorem map_append (a b : SqlText H) :
    SqlText.map f (a ++ b) = SqlText.map f a ++ SqlText.map f b :=
  List.map_append

theorem join_cons_cons (sep : String) (t t' : SqlText H) (ts : List (SqlText H)) :
    SqlText.join sep (t :: t' :: ts) = t ++ .text sep :: SqlText.join sep (t' :: ts) := rfl

/-- The placeholders of joined texts are those of the texts, in order. -/
theorem holes_join (sep : String) (ts : List (SqlText H)) :
    (SqlText.join sep ts).holes = ts.flatMap SqlText.holes := by
  induction ts with
  | nil => rfl
  | cons t ts ih =>
    cases ts with
    | nil => rw [List.flatMap_cons, List.flatMap_nil, List.append_nil]; rfl
    | cons t' ts =>
      rw [join_cons_cons, holes_append, holes_text, ih]
      rfl

theorem map_join (sep : String) (ts : List (SqlText H)) :
    SqlText.map f (SqlText.join sep ts) = SqlText.join sep (ts.map (SqlText.map f)) := by
  induction ts with
  | nil => rfl
  | cons t ts ih =>
    cases ts with
    | nil => rfl
    | cons t' ts =>
      rw [join_cons_cons, map_append, map_text, ih]
      rfl

/-- Renaming placeholders renames the list of placeholders. -/
theorem holes_map (sql : SqlText H) : (sql.map f).holes = sql.holes.map f := by
  induction sql with
  | nil => rfl
  | cons p sql ih =>
    cases p with
    | text s => exact ih
    | hole h => exact congrArg (f h :: ·) ih

end Vertz.Db.Sql
