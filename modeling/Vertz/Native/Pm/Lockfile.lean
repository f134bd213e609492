import Vertz.Native.Pm.Hoist

/-!
# `Vertz.Native.Pm.Lockfile`: the text of a lockfile

`writeLockfile` writes each entry as a block of lines that ends with an
empty line: the key at column 0, then the fields, then one section for
each map or list that is not empty. `parseLockfile` reads the lines one
by one and always succeeds. Values are written between quotes as they
are, and read up to a quote.
-/

namespace Vertz.Native.Pm

open Vertz.Lib Vertz.Rust

/-! ### Writing -/

def lockfileHeaderV2 : List (List Char) :=
  ["# vertz.lock v2 (custom format) — DO NOT EDIT".toList,
    "# Run \"vertz install\" to regenerate".toList]

def quoted (s : String) : List Char := '"' :: (s.toList ++ ['"'])

def fieldLine (field : String) (value : String) : List Char :=
  "  ".toList ++ (field.toList ++ ' ' :: quoted value)

def flagLine (flag : String) (value : Bool) : List (List Char) :=
  if value then ["  ".toList ++ (flag.toList ++ " true".toList)] else []

def pairLine (pair : String × String) : List Char :=
  "    ".toList ++ (quoted pair.1 ++ ' ' :: quoted pair.2)

def valueLine (value : String) : List Char := "    ".toList ++ quoted value

def sectionLine (header : String) : List Char := "  ".toList ++ header.toList

/-- The section of a map or list, unless it is empty. -/
def sectionLines (header : String) (body : List (List Char)) : List (List Char) :=
  if body.isEmpty then [] else sectionLine header :: body

def keyLine (key : String) : List Char := key.toList ++ [':']

/-- An empty list of systems writes no section, as if there were none. -/
def entryLines (key : String) (entry : LockfileEntry) : List (List Char) :=
  [keyLine key, fieldLine "version" entry.version, fieldLine "resolved" entry.resolved,
    fieldLine "integrity" entry.integrity] ++
  flagLine "optional" entry.optional ++ flagLine "overridden" entry.overridden ++
  sectionLines "dependencies:" (entry.dependencies.entries.map pairLine) ++
  sectionLines "optionalDependencies:" (entry.optionalDependencies.entries.map pairLine) ++
  sectionLines "bin:" (entry.bin.entries.map pairLine) ++
  sectionLines "scripts:" (entry.scripts.entries.map pairLine) ++
  sectionLines "os:" ((entry.os.getD []).map valueLine) ++
  sectionLines "cpu:" ((entry.cpu.getD []).map valueLine) ++
  [[]]

def lockfileLines (lockfile : Lockfile) : List (List Char) :=
  lockfileHeaderV2 ++ [] :: lockfile.entries.entries.flatMap (fun e => entryLines e.1 e.2)

/-- The text of a lockfile, always in the current format. -/
def writeLockfile (lockfile : Lockfile) : List Char := unlines (lockfileLines lockfile)

/-! ### Parsing -/

/-- The version in the header, and 1 without one. -/
def parseVersionLines : List (List Char) → ℕ
  | [] => 1
  | line :: rest =>
    match (stripPrefix "# vertz.lock v".toList line).bind
        (fun tail => parseU32 (tail.takeWhile Char.isDigit)) with
    | some version => version
    | none =>
      if line.head? ≠ some '#' ∧ trim line ≠ [] then 1 else parseVersionLines rest

def parseLockfileVersion (content : List Char) : ℕ := parseVersionLines (lines content)

/-- Without the quotes around it. -/
def unquote (s : List Char) : List Char := trimMatches '"' (trim s)

/-- A pair of quoted strings. -/
def parseQuotedPair (s : List Char) : Option (List Char × List Char) :=
  match trim s with
  | '"' :: afterFirst =>
    match splitOnce '"' afterFirst with
    | some (name, rest) =>
      match trimStart rest with
      | '"' :: afterSecond =>
        (splitOnce '"' afterSecond).map (fun parts => (name, parts.1))
      | _ => none
    | none => none
  | _ => none

inductive Section where
  | dependencies
  | optionalDependencies
  | bin
  | scripts
  | os
  | cpu
  deriving DecidableEq, Repr

def sectionOf (trimmed : List Char) : Option Section :=
  if trimmed = "dependencies:".toList then some .dependencies
  else if trimmed = "optionalDependencies:".toList then some .optionalDependencies
  else if trimmed = "bin:".toList then some .bin
  else if trimmed = "scripts:".toList then some .scripts
  else if trimmed = "os:".toList then some .os
  else if trimmed = "cpu:".toList then some .cpu
  else none

def emptyEntry : LockfileEntry where
  name := ""
  range := ""
  version := ""
  resolved := ""
  integrity := ""
  dependencies := .empty
  optionalDependencies := .empty
  bin := .empty
  scripts := .empty
  optional := false
  overridden := false
  os := none
  cpu := none

def insertPair (trimmed : List Char) (map : SortedMap String String) : SortedMap String String :=
  match parseQuotedPair trimmed with
  | some (name, value) => map.insert (String.ofList name) (String.ofList value)
  | none => map

def pushValue (trimmed : List Char) (list : Option (List String)) : Option (List String) :=
  some (list.getD [] ++ [String.ofList (unquote trimmed)])

def addToSection (sec : Section) (trimmed : List Char) (entry : LockfileEntry) : LockfileEntry :=
  match sec with
  | .dependencies => { entry with dependencies := insertPair trimmed entry.dependencies }
  | .optionalDependencies =>
    { entry with optionalDependencies := insertPair trimmed entry.optionalDependencies }
  | .bin => { entry with bin := insertPair trimmed entry.bin }
  | .scripts => { entry with scripts := insertPair trimmed entry.scripts }
  | .os => { entry with os := pushValue trimmed entry.os }
  | .cpu => { entry with cpu := pushValue trimmed entry.cpu }

def setField (trimmed : List Char) (entry : LockfileEntry) : LockfileEntry :=
  match stripPrefix "version ".toList trimmed with
  | some rest => { entry with version := String.ofList (unquote rest) }
  | none =>
    match stripPrefix "resolved ".toList trimmed with
    | some rest => { entry with resolved := String.ofList (unquote rest) }
    | none =>
      match stripPrefix "integrity ".toList trimmed with
      | some rest => { entry with integrity := String.ofList (unquote rest) }
      | none =>
        if trimmed = "optional true".toList then { entry with optional := true }
        else if trimmed = "overridden true".toList then { entry with overridden := true }
        else entry

structure ParseState where
  entries : SortedMap String LockfileEntry
  currentKey : Option String
  currentEntry : LockfileEntry
  inSection : Option Section

def ParseState.init : ParseState := ⟨.empty, none, emptyEntry, none⟩

/-- Save the current entry, if there is one, and start over. -/
def saveEntry (st : ParseState) : ParseState :=
  match st.currentKey with
  | none => st
  | some key => ⟨st.entries.insert key st.currentEntry, none, emptyEntry, none⟩

/-- Start the entry of a spec, if it is a spec key. -/
def startEntry (st : ParseState) (spec : List Char) : ParseState :=
  match Lockfile.parseSpecKey spec with
  | none => st
  | some (name, range) =>
    { st with
      currentKey := some (String.ofList spec)
      currentEntry :=
        { st.currentEntry with name := String.ofList name, range := String.ofList range } }

/-- A line inside an entry. -/
def entryLine (st : ParseState) (trimmed : List Char) : ParseState :=
  match sectionOf trimmed with
  | some sec => { st with inSection := some sec }
  | none =>
    match st.inSection with
    | some sec => { st with currentEntry := addToSection sec trimmed st.currentEntry }
    | none => { st with currentEntry := setField trimmed st.currentEntry }

def parseLine (st : ParseState) (line : List Char) : ParseState :=
  if line.head? = some '#' then
    -- a comment that is blank when trimmed does not exist
    st
  else if trim line = [] then
    saveEntry st
  else if line.head? ≠ some ' ' ∧ (trim line).getLast? = some ':' ∧
      sectionOf (trim line) = none then
    startEntry (saveEntry st) (trim line).dropLast
  else if st.currentKey.isSome then
    entryLine st (trim line)
  else
    st

/-- The source's result is always `Ok`. -/
def parseLockfile (content : List Char) : Lockfile where
  version := parseLockfileVersion content
  entries := (saveEntry ((lines content).foldl parseLine .init)).entries

end Vertz.Native.Pm
