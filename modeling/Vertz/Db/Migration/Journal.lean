import Mathlib.Algebra.Group.Nat.Defs
import Mathlib.Data.List.Basic

/-!
# `Vertz.Db.Migration.Journal`: migration names and their collisions

A name is its characters, and of a journal entry only the name is read. A
number is a double: `toNumber` rounds to one. Names with more than 300
digits, which are read as `Infinity`, and the exponents that `String` writes
from `10 ^ 21` on are left out.
-/

namespace Vertz.Db.Migration

abbrev Name := List Char

/-- The double nearest to `n`; of two, the one with an even significand. -/
def toNumber (n : ℕ) : ℕ :=
  let ulp := 2 ^ (n.log2 - 52)
  if 2 * (n % ulp) < ulp ∨ 2 * (n % ulp) = ulp ∧ n / ulp % 2 = 0 then n / ulp * ulp
  else (n / ulp + 1) * ulp

/-- `/^(\d+)_/`: the digits, and what follows the underscore. -/
def leadingNumber (s : Name) : Option (List Char × Name) :=
  match s.takeWhile Char.isDigit, s.dropWhile Char.isDigit with
  | d :: digits, '_' :: rest => some (d :: digits, rest)
  | _, _ => none

/-- `/\.sql$/`: what stands before it. -/
def beforeSql (s : Name) : Option Name :=
  if s.drop (s.length - 4) = ".sql".toList then some (s.take (s.length - 4)) else none

/-- What `.` does not match. -/
def isLineTerminator (c : Char) : Bool := ['\n', '\r', '\u2028', '\u2029'].contains c

/-- The number of a name that matches `/^(\d+)_(.+)\.sql$/`. -/
def parseMigrationName (filename : Name) : Option ℕ := do
  let (digits, rest) ← leadingNumber filename
  let description ← beforeSql rest
  if description = [] ∨ description.any isLineTerminator then none
  else some (toNumber (Nat.ofDigitChars 10 digits 0))

def formatMigrationFilename (num : ℕ) (description : List Char) : Name :=
  (Nat.toDigits 10 num).leftpad 4 '0' ++ '_' :: (description ++ ".sql".toList)

structure CollisionInfo where
  existingName : Name
  conflictingName : Name
  sequenceNumber : ℕ
  suggestedName : Name
  deriving DecidableEq

/-- The map from a number to the journal entry set last under it. -/
def journalSeqNumbers (journal : List Name) : ℕ → Option Name :=
  journal.foldl (fun m name =>
    match parseMigrationName name with
    | some n => Function.update m n (some name)
    | none => m) fun _ => none

/-- The numbers of the journal and of the files. -/
def allUsedSeqNumbers (journal existingFiles : List Name) : List ℕ :=
  journal.filterMap parseMigrationName ++ existingFiles.filterMap parseMigrationName

/-- The number after every used and every suggested one. -/
def nextSeq (used : List ℕ) (collisions : List CollisionInfo) : ℕ :=
  collisions.foldl (fun next c =>
    match parseMigrationName c.suggestedName with
    | some n => if next ≤ n then toNumber (n + 1) else next
    | none => next) (toNumber (used.foldl max 0 + 1))

/-- `file.replace(/^\d+_/, '').replace(/\.sql$/, '')`. -/
def descriptionOf (file : Name) : List Char :=
  let rest := ((leadingNumber file).map Prod.snd).getD file
  (beforeSql rest).getD rest

/-- The journal entry that a file is in conflict with, and their number. -/
def conflict (journal : List Name) (file : Name) : Option (ℕ × Name) := do
  let n ← parseMigrationName file
  let journalEntry ← journalSeqNumbers journal n
  if journalEntry ≠ [] ∧ journalEntry ≠ file then some (n, journalEntry) else none

/-- One round of the loop over the files. -/
def addCollision (journal : List Name) (used : List ℕ) (collisions : List CollisionInfo)
    (file : Name) : List CollisionInfo :=
  match conflict journal file with
  | none => collisions
  | some (n, journalEntry) =>
    let suggestedName := formatMigrationFilename (nextSeq used collisions) (descriptionOf file)
    collisions ++ [⟨journalEntry, file, n, suggestedName⟩]

def detectCollisions (journal existingFiles : List Name) : List CollisionInfo :=
  existingFiles.foldl (addCollision journal (allUsedSeqNumbers journal existingFiles)) []

/-- One round of the loop over the files. -/
def largerNumber (max : ℕ) (file : Name) : ℕ :=
  match parseMigrationName file with
  | some n => if max < n then n else max
  | none => max

def nextMigrationNumber (existingFiles : List Name) : ℕ :=
  toNumber (existingFiles.foldl largerNumber 0 + 1)

/-- The entries of the journal, and the migration files beside it. -/
structure MigrationsDir where
  journal : List Name
  files : List Name

/-- What `migrateDev` leaves in the directory. -/
def migrateDev (dir : MigrationsDir) (migrationName : List Char) (dryRun : Bool) : MigrationsDir :=
  let filename := formatMigrationFilename (nextMigrationNumber dir.files) migrationName
  if dryRun then dir
  else
    { journal := dir.journal ++ [filename]
      files := if filename ∈ dir.files then dir.files else dir.files ++ [filename] }

end Vertz.Db.Migration
