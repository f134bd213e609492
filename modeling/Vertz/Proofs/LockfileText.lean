import Vertz.Native.Pm.Lockfile

/-!
# `Vertz.Proofs.LockfileText`: lockfiles, written and read back

An empty list of systems stands for no list. Apart from that, a lockfile
is to be read back as it was written, and to be written again to the same
text. `Plain` says which lockfiles are: those whose texts survive the
line format.
-/

namespace Vertz.Spec

open Vertz.Lib Vertz.Native.Pm Vertz.Rust

def dropEmpty (list : Option (List String)) : Option (List String) :=
  match list with
  | some [] => none
  | other => other

def identifyEntry (entry : LockfileEntry) : LockfileEntry :=
  { entry with os := dropEmpty entry.os, cpu := dropEmpty entry.cpu }

/-- The lockfile with no empty list of systems. -/
def identify (lockfile : Lockfile) : Lockfile :=
  { lockfile with entries := lockfile.entries.mapValues identifyEntry }

def RoundTrips (lockfile : Lockfile) : Prop :=
  identify (parseLockfile (writeLockfile lockfile)) = identify lockfile ∧
    writeLockfile (parseLockfile (writeLockfile lockfile)) = writeLockfile lockfile

/-! ### When it is -/

/-- A value of a field or a list: on one line, with no quote at its ends. -/
def PlainValue (s : String) : Prop :=
  '\n' ∉ s.toList ∧ s.toList.head? ≠ some '"' ∧ s.toList.getLast? ≠ some '"'

/-- A text of a pair: on one line, without quotes. -/
def PlainText (s : String) : Prop := '\n' ∉ s.toList ∧ '"' ∉ s.toList

def PlainMap (map : SortedMap String String) : Prop :=
  ∀ pair ∈ map.entries, PlainText pair.1 ∧ PlainText pair.2

def PlainList (list : Option (List String)) : Prop := ∀ v ∈ list.getD [], PlainValue v

structure PlainFields (entry : LockfileEntry) : Prop where
  version : PlainValue entry.version
  resolved : PlainValue entry.resolved
  integrity : PlainValue entry.integrity
  dependencies : PlainMap entry.dependencies
  optionalDependencies : PlainMap entry.optionalDependencies
  bin : PlainMap entry.bin
  scripts : PlainMap entry.scripts
  os : PlainList entry.os
  cpu : PlainList entry.cpu

/-- The key is on one line, does not start with whitespace, and splits
into the entry's name and range. -/
structure SpecOf (key : String) (entry : LockfileEntry) : Prop where
  line : '\n' ∉ key.toList
  start : ∀ c, key.toList.head? = some c → isWhitespace c = false
  spec : Lockfile.parseSpecKey key.toList = some (entry.name.toList, entry.range.toList)

/-- The key would be read as a comment. -/
def IsComment (key : String) : Prop := key.toList.head? = some '#'

def Plain (lockfile : Lockfile) : Prop :=
  lockfile.version = 2 ∧ ∀ e ∈ lockfile.entries.entries,
    SpecOf e.1 e.2 ∧ ¬ IsComment e.1 ∧ PlainFields e.2

end Vertz.Spec

/-!
## Which lockfiles survive their text

Whatever the parser reads is plain, apart from keys that look like
comments (`parse_plain`), so a lockfile that is read back is plain. The
other way around, each kind of line of a plain block does to the parser's
state what the writer meant (`parse_entryLines`), and a block adds its
entry.
-/

namespace Vertz.Proofs

open Vertz.Lib Vertz.Native.Pm Vertz.Rust Vertz.Spec List

/-! ### Reading one line -/

theorem quoted_head (s : String) : (quoted s).head? = some '"' := rfl

theorem quoted_last (s : String) : (quoted s).getLast? = some '"' := by
  rw [quoted, ← cons_append, getLast?_append]
  rfl

theorem trim_quoted {s : List Char} (hhead : s.head? = some '"') (hlast : s.getLast? = some '"') :
    trim s = s := by
  refine trimWhile_eq_self ?_ ?_
  · intro c hc
    rw [hhead] at hc
    cases hc
    rfl
  · intro c hc
    rw [hlast] at hc
    cases hc
    rfl

theorem unquote_quoted {v : String} (h : PlainValue v) : unquote (quoted v) = v.toList := by
  rw [unquote, trim_quoted (quoted_head v) (quoted_last v)]
  exact trimMatches_quoted h.2.1 h.2.2

theorem parseQuotedPair_quoted {a b : String} (ha : PlainText a) (hb : PlainText b) :
    parseQuotedPair (quoted a ++ ' ' :: quoted b) = some (a.toList, b.toList) := by
  have hlast : (quoted a ++ ' ' :: quoted b).getLast? = some '"' := by
    rw [getLast?_append, getLast?_cons, quoted_last]
    rfl
  have htrim : trim (quoted a ++ ' ' :: quoted b) = quoted a ++ ' ' :: quoted b :=
    trim_quoted rfl hlast
  have hsplit : quoted a ++ ' ' :: quoted b =
      '"' :: (a.toList ++ '"' :: (' ' :: quoted b)) := by simp [quoted]
  have hstart : trimStart (' ' :: quoted b) = '"' :: (b.toList ++ ['"']) := by
    have hspace : isWhitespace ' ' = true := rfl
    have hquote : isWhitespace '"' = false := rfl
    simp [trimStart, quoted, hspace, hquote]
  rw [parseQuotedPair, htrim, hsplit]
  simp only [splitOnce_append ha.2, hstart, splitOnce_append hb.2, Option.map_some]

theorem sectionOf_eq_none {t : List Char} (h : t.getLast? ≠ some ':') : sectionOf t = none := by
  unfold sectionOf
  repeat' split
  all_goals first
    | rfl
    | (rename_i heq; rw [heq] at h; exact absurd rfl h)

theorem spaces_two : ∀ c ∈ "  ".toList, c = ' ' := by
  intro c hc
  simpa using hc

theorem spaces_four : ∀ c ∈ "    ".toList, c = ' ' := by
  intro c hc
  simpa using hc

variable {st : ParseState} {key : String}

theorem parseLine_indented {indent body : List Char} (hindent : indent.head? = some ' ')
    (hspaces : ∀ c ∈ indent, c = ' ') (hkey : st.currentKey = some key)
    (hhead : ∃ c, body.head? = some c ∧ isWhitespace c = false)
    (hlast : ∃ c, body.getLast? = some c ∧ isWhitespace c = false) :
    parseLine st (indent ++ body) = entryLine st body := by
  obtain ⟨c, hc, hcws⟩ := hhead
  obtain ⟨d, hd, hdws⟩ := hlast
  have htrim : trim (indent ++ body) = body := by
    refine trim_indent ?_ ?_ ?_
    · intro e he
      rw [hspaces e he]
      rfl
    · intro e he
      rw [hc] at he
      cases he
      exact hcws
    · intro e he
      rw [hd] at he
      cases he
      exact hdws
  have hfirst : (indent ++ body).head? = some ' ' := by
    rw [head?_append, hindent]
    rfl
  have hne : body ≠ [] := by
    intro hnil
    rw [hnil] at hc
    cases hc
  rw [parseLine, htrim, hfirst, if_neg (by decide), if_neg hne, if_neg (by simp), hkey]
  rfl

/-! ### Reading the lines of a block -/

variable {map : SortedMap String LockfileEntry} {entry : LockfileEntry}

theorem parse_keyLine (hspec : SpecOf key entry) (hcomment : ¬ IsComment key) :
    parseLine ⟨map, none, emptyEntry, none⟩ (keyLine key) =
      ⟨map, some key, { emptyEntry with name := entry.name, range := entry.range }, none⟩ := by
  have hne : key.toList ≠ [] := by
    intro hnil
    have hparse := hspec.spec
    rw [hnil] at hparse
    cases hparse
  obtain ⟨c, cs, hkey⟩ := exists_cons_of_ne_nil hne
  have hc : isWhitespace c = false := hspec.start c (by rw [hkey]; rfl)
  have hhead : (keyLine key).head? = some c := by
    rw [keyLine, hkey]
    rfl
  have hlast : (keyLine key).getLast? = some ':' := by
    rw [keyLine, getLast?_append]
    rfl
  have htrim : trim (keyLine key) = keyLine key := by
    refine trimWhile_eq_self ?_ ?_
    · intro d hd
      rw [hhead] at hd
      cases hd
      exact hc
    · intro d hd
      rw [hlast] at hd
      cases hd
      rfl
  have hhash : c ≠ '#' := fun heq => hcomment (by rw [IsComment, hkey, heq]; rfl)
  have hspace : c ≠ ' ' := by
    intro heq
    rw [heq] at hc
    cases hc
  have hdrop : (keyLine key).dropLast = key.toList := by
    rw [keyLine, dropLast_concat]
  -- a section header has no spec
  have hsection : sectionOf (keyLine key) = none := by
    have hspec' := hspec.spec
    rw [← hdrop] at hspec'
    unfold sectionOf
    repeat' split
    all_goals first
      | rfl
      | (rename_i heq; rw [heq] at hspec'; cases hspec')
  have hlong : keyLine key ≠ [] := by simp [keyLine]
  rw [parseLine, htrim, hhead, if_neg (by simpa using hhash), if_neg hlong,
    if_pos ⟨by simpa using hspace, hlast, hsection⟩, hdrop]
  show startEntry ⟨map, none, emptyEntry, none⟩ key.toList = _
  rw [startEntry, hspec.spec]
  simp [String.ofList_toList]

theorem parse_fieldLine {field value : String}
    (hfield : ∃ c, field.toList.head? = some c ∧ isWhitespace c = false) :
    parseLine ⟨map, some key, entry, none⟩ (fieldLine field value) =
      ⟨map, some key, setField (field.toList ++ ' ' :: quoted value) entry, none⟩ := by
  have hlast : (field.toList ++ ' ' :: quoted value).getLast? = some '"' := by
    rw [getLast?_append, getLast?_cons, quoted_last]
    rfl
  obtain ⟨c, hc, hws⟩ := hfield
  rw [fieldLine, parseLine_indented rfl spaces_two rfl ⟨c, ?_, hws⟩ ⟨'"', hlast, rfl⟩, entryLine,
    sectionOf_eq_none (by rw [hlast]; decide)]
  rw [List.head?_append, hc]
  rfl

theorem setField_version {v : String} (h : PlainValue v) (entry : LockfileEntry) :
    setField ("version".toList ++ ' ' :: quoted v) entry = { entry with version := v } := by
  have hstrip : stripPrefix "version ".toList ("version".toList ++ ' ' :: quoted v) =
      some (quoted v) := stripPrefix_append "version ".toList (quoted v)
  rw [setField, hstrip]
  simp only [unquote_quoted h, String.ofList_toList]

theorem setField_resolved {v : String} (h : PlainValue v) (entry : LockfileEntry) :
    setField ("resolved".toList ++ ' ' :: quoted v) entry = { entry with resolved := v } := by
  have hstrip : stripPrefix "resolved ".toList ("resolved".toList ++ ' ' :: quoted v) =
      some (quoted v) := stripPrefix_append "resolved ".toList (quoted v)
  have hother : stripPrefix "version ".toList ("resolved".toList ++ ' ' :: quoted v) = none := rfl
  rw [setField, hother, hstrip]
  simp only [unquote_quoted h, String.ofList_toList]

theorem setField_integrity {v : String} (h : PlainValue v) (entry : LockfileEntry) :
    setField ("integrity".toList ++ ' ' :: quoted v) entry = { entry with integrity := v } := by
  have hstrip : stripPrefix "integrity ".toList ("integrity".toList ++ ' ' :: quoted v) =
      some (quoted v) := stripPrefix_append "integrity ".toList (quoted v)
  have hother : stripPrefix "version ".toList ("integrity".toList ++ ' ' :: quoted v) = none := rfl
  have hother' : stripPrefix "resolved ".toList ("integrity".toList ++ ' ' :: quoted v) = none :=
    rfl
  rw [setField, hother, hother', hstrip]
  simp only [unquote_quoted h, String.ofList_toList]

theorem parse_flagLine (map : SortedMap String LockfileEntry) (key : String)
    (entry : LockfileEntry) {flag : String} {c : Char} (hhead : flag.toList.head? = some c)
    (hws : isWhitespace c = false) :
    (flagLine flag true).foldl parseLine ⟨map, some key, entry, none⟩ =
      entryLine ⟨map, some key, entry, none⟩ (flag.toList ++ " true".toList) := by
  have hfirst : (flag.toList ++ " true".toList).head? = some c := by
    rw [List.head?_append, hhead]
    rfl
  have hlast : (flag.toList ++ " true".toList).getLast? = some 'e' := by
    rw [List.getLast?_append]
    rfl
  rw [flagLine, if_pos rfl, List.foldl_cons, List.foldl_nil,
    parseLine_indented rfl spaces_two rfl ⟨c, hfirst, hws⟩ ⟨'e', hlast, rfl⟩]

theorem parse_optional (map : SortedMap String LockfileEntry) (key : String)
    (hentry : entry.optional = false) (value : Bool) :
    (flagLine "optional" value).foldl parseLine ⟨map, some key, entry, none⟩ =
      ⟨map, some key, { entry with optional := value }, none⟩ := by
  cases value with
  | false =>
    cases entry
    cases hentry
    rfl
  | true =>
    rw [parse_flagLine (c := 'o') map key entry rfl rfl]
    rfl

theorem parse_overridden (map : SortedMap String LockfileEntry) (key : String)
    (hentry : entry.overridden = false) (value : Bool) :
    (flagLine "overridden" value).foldl parseLine ⟨map, some key, entry, none⟩ =
      ⟨map, some key, { entry with overridden := value }, none⟩ := by
  cases value with
  | false =>
    cases entry
    cases hentry
    rfl
  | true =>
    rw [parse_flagLine (c := 'o') map key entry rfl rfl]
    rfl

/-! ### Reading sections -/

/-- The field of an entry that the lines of a section add to. -/
structure SectionField (sec : Section) (X : Type) where
  get : LockfileEntry → X
  set : X → LockfileEntry → LockfileEntry
  add : List Char → X → X
  addTo : ∀ t entry, addToSection sec t entry = set (add t (get entry)) entry
  get_set : ∀ x entry, get (set x entry) = x
  set_set : ∀ x y entry, set x (set y entry) = set x entry
  set_get : ∀ entry, set (get entry) entry = entry

def dependenciesField : SectionField .dependencies (SortedMap String String) where
  get := LockfileEntry.dependencies
  set := fun x entry => { entry with dependencies := x }
  add := insertPair
  addTo := fun _ _ => rfl
  get_set := fun _ _ => rfl
  set_set := fun _ _ _ => rfl
  set_get := fun _ => rfl

def optionalDependenciesField : SectionField .optionalDependencies (SortedMap String String) where
  get := LockfileEntry.optionalDependencies
  set := fun x entry => { entry with optionalDependencies := x }
  add := insertPair
  addTo := fun _ _ => rfl
  get_set := fun _ _ => rfl
  set_set := fun _ _ _ => rfl
  set_get := fun _ => rfl

def binField : SectionField .bin (SortedMap String String) where
  get := LockfileEntry.bin
  set := fun x entry => { entry with bin := x }
  add := insertPair
  addTo := fun _ _ => rfl
  get_set := fun _ _ => rfl
  set_set := fun _ _ _ => rfl
  set_get := fun _ => rfl

def scriptsField : SectionField .scripts (SortedMap String String) where
  get := LockfileEntry.scripts
  set := fun x entry => { entry with scripts := x }
  add := insertPair
  addTo := fun _ _ => rfl
  get_set := fun _ _ => rfl
  set_set := fun _ _ _ => rfl
  set_get := fun _ => rfl

def osField : SectionField .os (Option (List String)) where
  get := LockfileEntry.os
  set := fun x entry => { entry with os := x }
  add := pushValue
  addTo := fun _ _ => rfl
  get_set := fun _ _ => rfl
  set_set := fun _ _ _ => rfl
  set_get := fun _ => rfl

def cpuField : SectionField .cpu (Option (List String)) where
  get := LockfileEntry.cpu
  set := fun x entry => { entry with cpu := x }
  add := pushValue
  addTo := fun _ _ => rfl
  get_set := fun _ _ => rfl
  set_set := fun _ _ _ => rfl
  set_get := fun _ => rfl

/-- A body line is between quotes. -/
def IsBody (body : List Char) : Prop := body.head? = some '"' ∧ body.getLast? = some '"'

theorem isBody_pair (pair : String × String) :
    IsBody (quoted pair.1 ++ ' ' :: quoted pair.2) := by
  refine ⟨rfl, ?_⟩
  rw [getLast?_append, getLast?_cons, quoted_last]
  rfl

theorem isBody_quoted (v : String) : IsBody (quoted v) := ⟨quoted_head v, quoted_last v⟩

theorem parse_bodies {sec : Section} {X : Type} (field : SectionField sec X)
    (map : SortedMap String LockfileEntry) (key : String) (entry : LockfileEntry)
    {bodies : List (List Char)} (h : ∀ body ∈ bodies, IsBody body) :
    (bodies.map ("    ".toList ++ ·)).foldl parseLine ⟨map, some key, entry, some sec⟩ =
      ⟨map, some key, field.set (bodies.foldl (fun x t => field.add t x) (field.get entry)) entry,
        some sec⟩ := by
  induction bodies generalizing entry with
  | nil => simp [field.set_get]
  | cons body bodies ih =>
    have hbody := h body mem_cons_self
    have hline : parseLine ⟨map, some key, entry, some sec⟩ ("    ".toList ++ body) =
        ⟨map, some key, field.set (field.add body (field.get entry)) entry, some sec⟩ := by
      rw [parseLine_indented rfl spaces_four rfl ⟨'"', hbody.1, rfl⟩ ⟨'"', hbody.2, rfl⟩,
        entryLine, sectionOf_eq_none (by rw [hbody.2]; decide)]
      simp only [field.addTo]
    rw [map_cons, foldl_cons, hline, ih _ (fun b hb => h b (mem_cons_of_mem _ hb)),
      field.get_set, field.set_set]
    rfl

/-- The section that the parser is in behind the lines of a section. -/
def afterSection (sec : Section) (bodies : List (List Char)) (inSection : Option Section) :
    Option Section :=
  if bodies.isEmpty then inSection else some sec

/-- A section sets its field to what its lines add up to. -/
theorem parse_section {sec : Section} {X : Type} (field : SectionField sec X)
    {header : String} (hheader : sectionOf header.toList = some sec)
    (hstart : ∃ c, header.toList.head? = some c ∧ isWhitespace c = false)
    (hend : ∃ c, header.toList.getLast? = some c ∧ isWhitespace c = false)
    (map : SortedMap String LockfileEntry) (key : String) (entry : LockfileEntry)
    (inSection : Option Section) {bodies : List (List Char)} (h : ∀ body ∈ bodies, IsBody body) :
    (sectionLines header (bodies.map ("    ".toList ++ ·))).foldl parseLine
        ⟨map, some key, entry, inSection⟩ =
      ⟨map, some key, field.set (bodies.foldl (fun x t => field.add t x) (field.get entry)) entry,
        afterSection sec bodies inSection⟩ := by
  cases bodies with
  | nil => simp [sectionLines, field.set_get, afterSection]
  | cons body bodies =>
    have hline : parseLine ⟨map, some key, entry, inSection⟩ (sectionLine header) =
        ⟨map, some key, entry, some sec⟩ := by
      rw [sectionLine, parseLine_indented rfl spaces_two rfl hstart hend, entryLine, hheader]
    rw [map_cons]
    show (sectionLine header :: _).foldl parseLine _ = _
    rw [foldl_cons, hline]
    exact parse_bodies field map key entry h

theorem foldl_insertPair {pairs : List (String × String)}
    (h : ∀ pair ∈ pairs, PlainText pair.1 ∧ PlainText pair.2) (map : SortedMap String String) :
    (pairs.map (fun pair => quoted pair.1 ++ ' ' :: quoted pair.2)).foldl
      (fun x t => insertPair t x) map = map.insertAll pairs := by
  induction pairs generalizing map with
  | nil => rfl
  | cons pair pairs ih =>
    have hpair := h pair mem_cons_self
    have hinsert : insertPair (quoted pair.1 ++ ' ' :: quoted pair.2) map =
        map.insert pair.1 pair.2 := by
      rw [insertPair, parseQuotedPair_quoted hpair.1 hpair.2]
      simp only [String.ofList_toList]
    rw [map_cons, foldl_cons, hinsert]
    exact ih (fun p hp => h p (mem_cons_of_mem _ hp)) _

theorem foldl_pushValue {values : List String} (h : ∀ v ∈ values, PlainValue v)
    (list : Option (List String)) :
    (values.map quoted).foldl (fun x t => pushValue t x) list =
      if values = [] then list else some (list.getD [] ++ values) := by
  induction values generalizing list with
  | nil => rfl
  | cons v values ih =>
    have hpush : pushValue (quoted v) list = some (list.getD [] ++ [v]) := by
      rw [pushValue, unquote_quoted (h v mem_cons_self), String.ofList_toList]
    rw [map_cons, foldl_cons, hpush,
      ih (fun w hw => h w (mem_cons_of_mem _ hw)), if_neg (cons_ne_nil _ _)]
    split
    · rename_i hnil
      rw [hnil]
    · simp

/-! ### Reading a block -/

theorem parse_pairSection {sec : Section} (field : SectionField sec (SortedMap String String))
    (hadd : field.add = insertPair) (header : String) (hheader : sectionOf header.toList = some sec)
    (hstart : ∃ c, header.toList.head? = some c ∧ isWhitespace c = false)
    (hend : ∃ c, header.toList.getLast? = some c ∧ isWhitespace c = false)
    {map : SortedMap String String} (hmap : PlainMap map) {entries : SortedMap String LockfileEntry}
    {inSection : Option Section} (hentry : field.get entry = .empty) :
    (sectionLines header (map.entries.map pairLine)).foldl parseLine
        ⟨entries, some key, entry, inSection⟩ =
      ⟨entries, some key, field.set map entry, afterSection sec
        (map.entries.map (fun pair => quoted pair.1 ++ ' ' :: quoted pair.2)) inSection⟩ := by
  have hrun := parse_section field hheader hstart hend entries key entry inSection
    (forall_mem_map.mpr (fun pair _ => isBody_pair pair) :
      ∀ body ∈ map.entries.map (fun pair => quoted pair.1 ++ ' ' :: quoted pair.2), IsBody body)
  have hlines : map.entries.map pairLine =
      (map.entries.map (fun pair => quoted pair.1 ++ ' ' :: quoted pair.2)).map
        ("    ".toList ++ ·) := by
    rw [map_map]
    rfl
  rw [hlines, hrun, hadd, foldl_insertPair hmap, hentry]
  rw [show SortedMap.empty.insertAll map.entries = map from map.ofEntries_entries]

theorem parse_listSection {sec : Section} (field : SectionField sec (Option (List String)))
    (hadd : field.add = pushValue) (header : String) (hheader : sectionOf header.toList = some sec)
    (hstart : ∃ c, header.toList.head? = some c ∧ isWhitespace c = false)
    (hend : ∃ c, header.toList.getLast? = some c ∧ isWhitespace c = false)
    {list : Option (List String)} (hlist : PlainList list)
    {entries : SortedMap String LockfileEntry} {inSection : Option Section}
    (hentry : field.get entry = none) :
    (sectionLines header ((list.getD []).map valueLine)).foldl parseLine
        ⟨entries, some key, entry, inSection⟩ =
      ⟨entries, some key, field.set (dropEmpty list) entry,
        afterSection sec ((list.getD []).map quoted) inSection⟩ := by
  have hrun := parse_section field hheader hstart hend entries key entry inSection
    (forall_mem_map.mpr (fun v _ => isBody_quoted v) :
      ∀ body ∈ (list.getD []).map quoted, IsBody body)
  have hlines : (list.getD []).map valueLine =
      ((list.getD []).map quoted).map ("    ".toList ++ ·) := by
    rw [map_map]
    rfl
  have hdrop : (if list.getD [] = [] then none else some ([] ++ list.getD [])) = dropEmpty list := by
    cases list with
    | none => rfl
    | some values => cases values <;> rfl
  rw [hlines, hrun, hadd, foldl_pushValue hlist, hentry, ← hdrop]
  rfl

theorem parse_blank (st : ParseState) : parseLine st [] = saveEntry st := rfl

theorem parse_entryLines (hspec : SpecOf key entry) (hcomment : ¬ IsComment key)
    (hplain : PlainFields entry) :
    (entryLines key entry).foldl parseLine ⟨map, none, emptyEntry, none⟩ =
      ⟨map.insert key (identifyEntry entry), none, emptyEntry, none⟩ := by
  have hfields : [keyLine key, fieldLine "version" entry.version,
      fieldLine "resolved" entry.resolved, fieldLine "integrity" entry.integrity].foldl parseLine
        ⟨map, none, emptyEntry, none⟩ =
      ⟨map, some key, { emptyEntry with
        name := entry.name, range := entry.range, version := entry.version,
        resolved := entry.resolved, integrity := entry.integrity }, none⟩ := by
    simp only [foldl_cons, foldl_nil]
    rw [parse_keyLine hspec hcomment, parse_fieldLine ⟨'v', rfl, rfl⟩,
      setField_version hplain.version, parse_fieldLine ⟨'r', rfl, rfl⟩,
      setField_resolved hplain.resolved, parse_fieldLine ⟨'i', rfl, rfl⟩,
      setField_integrity hplain.integrity]
  simp only [entryLines, foldl_append, hfields]
  rw [parse_optional map key rfl, parse_overridden map key rfl]
  rw [parse_pairSection dependenciesField rfl "dependencies:" rfl ⟨'d', rfl, rfl⟩
      ⟨':', rfl, rfl⟩ hplain.dependencies,
    parse_pairSection optionalDependenciesField rfl "optionalDependencies:" rfl ⟨'o', rfl, rfl⟩
      ⟨':', rfl, rfl⟩ hplain.optionalDependencies,
    parse_pairSection binField rfl "bin:" rfl ⟨'b', rfl, rfl⟩ ⟨':', rfl, rfl⟩ hplain.bin,
    parse_pairSection scriptsField rfl "scripts:" rfl ⟨'s', rfl, rfl⟩ ⟨':', rfl, rfl⟩
      hplain.scripts,
    parse_listSection osField rfl "os:" rfl ⟨'o', rfl, rfl⟩ ⟨':', rfl, rfl⟩ hplain.os,
    parse_listSection cpuField rfl "cpu:" rfl ⟨'c', rfl, rfl⟩ ⟨':', rfl, rfl⟩ hplain.cpu]
  · rw [foldl_cons, foldl_nil, parse_blank]
    simp only [dependenciesField, optionalDependenciesField, binField, scriptsField, osField,
      cpuField, saveEntry, identifyEntry]
  all_goals simp only [dependenciesField, optionalDependenciesField, binField, scriptsField,
    osField, cpuField, emptyEntry]

/-- The blocks of plain entries add the entries in order. -/
theorem parse_blocks {entries : List (String × LockfileEntry)}
    (h : ∀ e ∈ entries, SpecOf e.1 e.2 ∧ ¬ IsComment e.1 ∧ PlainFields e.2)
    (map : SortedMap String LockfileEntry) :
    (entries.flatMap (fun e => entryLines e.1 e.2)).foldl parseLine ⟨map, none, emptyEntry, none⟩ =
      ⟨map.insertAll (entries.map (fun e => (e.1, identifyEntry e.2))), none, emptyEntry, none⟩ := by
  induction entries generalizing map with
  | nil => rfl
  | cons e entries ih =>
    obtain ⟨hspec, hcomment, hplain⟩ := h e mem_cons_self
    rw [flatMap_cons, foldl_append, parse_entryLines hspec hcomment hplain,
      ih (fun f hf => h f (mem_cons_of_mem _ hf))]
    rfl

/-! ### The lines of a text -/

theorem isLine_of_last {l : List Char} {c : Char} (hnl : '\n' ∉ l) (hlast : l.getLast? = some c)
    (hc : c ≠ '\r') : IsLine l := ⟨hnl, stripReturn_of_getLast hlast hc⟩

theorem isLine_header : ∀ l ∈ lockfileHeaderV2, IsLine l := by
  intro l hl
  simp only [lockfileHeaderV2, mem_cons, not_mem_nil, or_false] at hl
  rcases hl with rfl | rfl
  · exact isLine_of_last (by decide) rfl (by decide)
  · exact isLine_of_last (by decide) rfl (by decide)

theorem newline_not_mem_quoted {s : String} (h : '\n' ∉ s.toList) : '\n' ∉ quoted s := by
  simp [quoted, h]

theorem parseLockfileVersion_write (lockfile : Lockfile) :
    parseLockfileVersion (writeLockfile lockfile) = 2 := by
  have hfirst : writeLockfile lockfile = "# vertz.lock v2 (custom format) — DO NOT EDIT".toList ++
      '\n' :: unlines ((lockfileLines lockfile).drop 1) := by
    rw [writeLockfile, lockfileLines, lockfileHeaderV2, unlines, unlines]
    simp only [cons_append, flatMap_cons, append_assoc, drop_succ_cons,
      drop_zero, nil_append]
  rw [parseLockfileVersion, hfirst, lines, linesFrom_line (by decide)]
  rfl

/-! ### What the parser reads is plain -/

theorem specOf_congr {entry entry' : LockfileEntry} (h : SpecOf key entry)
    (hname : entry'.name = entry.name) (hrange : entry'.range = entry.range) : SpecOf key entry' :=
  ⟨h.line, h.start, by rw [hname, hrange]; exact h.spec⟩

theorem plainValue_unquote {s : List Char} (h : '\n' ∉ s) :
    PlainValue (String.ofList (unquote s)) := by
  refine ⟨?_, ?_, ?_⟩
  · rw [String.toList_ofList]
    exact fun hmem => h (mem_trimWhile (mem_trimWhile hmem))
  · rw [String.toList_ofList]
    intro hhead
    have hno := head_trimWhile hhead
    simp at hno
  · rw [String.toList_ofList]
    intro hlast
    have hno := getLast_trimWhile hlast
    simp at hno

theorem plainText_of_pair {s a b : List Char} (h : '\n' ∉ s)
    (hpair : parseQuotedPair s = some (a, b)) :
    PlainText (String.ofList a) ∧ PlainText (String.ofList b) := by
  have htrim : '\n' ∉ trim s := fun hmem => h (mem_trimWhile hmem)
  unfold parseQuotedPair at hpair
  split at hpair
  · rename_i afterFirst hfirst
    rw [hfirst] at htrim
    split at hpair
    · rename_i name rest hsplit
      obtain ⟨happ, hname⟩ := splitOnce_eq hsplit
      split at hpair
      · rename_i afterSecond hsecond
        obtain ⟨⟨value, tail⟩, hsplit', heq⟩ := Option.map_eq_some_iff.mp hpair
        obtain ⟨happ', hvalue⟩ := splitOnce_eq hsplit'
        cases heq
        have hnl : '\n' ∉ a ∧ '\n' ∉ rest := by
          rw [happ] at htrim
          simp only [mem_cons, mem_append, not_or] at htrim
          exact ⟨htrim.2.1, htrim.2.2.2⟩
        have hnl' : '\n' ∉ value := by
          intro hmem
          have hin : '\n' ∈ trimStart rest := by
            rw [hsecond, happ']
            simp [hmem]
          exact hnl.2 ((dropWhile_suffix isWhitespace).mem hin)
        rw [PlainText, PlainText, String.toList_ofList, String.toList_ofList]
        exact ⟨⟨hnl.1, hname⟩, hnl', hvalue⟩
      · cases hpair
    · cases hpair
  · cases hpair

theorem plainMap_insertPair {t : List Char} (h : '\n' ∉ t) {map : SortedMap String String}
    (hmap : PlainMap map) : PlainMap (insertPair t map) := by
  unfold insertPair
  split
  · rename_i name value hpair
    intro pair hmem
    rcases SortedMap.mem_put hmem with heq | hold
    · rw [heq]
      exact plainText_of_pair h hpair
    · exact hmap pair hold
  · exact hmap

theorem plainList_pushValue {t : List Char} (h : '\n' ∉ t) {list : Option (List String)}
    (hlist : PlainList list) : PlainList (pushValue t list) := by
  intro v hv
  rcases mem_append.mp hv with hv | hv
  · exact hlist v hv
  · rw [mem_singleton.mp hv]
    exact plainValue_unquote h

theorem plainFields_addToSection {sec : Section} {t : List Char} (h : '\n' ∉ t)
    (hentry : PlainFields entry) : PlainFields (addToSection sec t entry) := by
  cases sec with
  | dependencies => exact { hentry with dependencies := plainMap_insertPair h hentry.dependencies }
  | optionalDependencies =>
    exact { hentry with
      optionalDependencies := plainMap_insertPair h hentry.optionalDependencies }
  | bin => exact { hentry with bin := plainMap_insertPair h hentry.bin }
  | scripts => exact { hentry with scripts := plainMap_insertPair h hentry.scripts }
  | os => exact { hentry with os := plainList_pushValue h hentry.os }
  | cpu => exact { hentry with cpu := plainList_pushValue h hentry.cpu }

theorem spec_addToSection (sec : Section) (t : List Char) (entry : LockfileEntry) :
    (addToSection sec t entry).name = entry.name ∧
      (addToSection sec t entry).range = entry.range := by
  cases sec <;> exact ⟨rfl, rfl⟩

theorem mem_of_stripPrefix {p s rest : List Char} (h : stripPrefix p s = some rest) {c : Char}
    (hc : c ∈ rest) : c ∈ s := by
  have hfront := isPrefixOf?_eq_some_iff_append_eq.mp h
  rw [← hfront]
  exact mem_append_right _ hc

theorem plainFields_setField {t : List Char} (h : '\n' ∉ t) (hentry : PlainFields entry)
    : PlainFields (setField t entry) := by
  have hvalue : ∀ {p rest}, stripPrefix p t = some rest →
      PlainValue (String.ofList (unquote rest)) := by
    intro p rest hstrip
    exact plainValue_unquote (fun hmem => h (mem_of_stripPrefix hstrip hmem))
  unfold setField
  split
  · rename_i hstrip
    exact { hentry with version := hvalue hstrip }
  · split
    · rename_i hstrip
      exact { hentry with resolved := hvalue hstrip }
    · split
      · rename_i hstrip
        exact { hentry with integrity := hvalue hstrip }
      · split
        · exact { hentry with }
        · split
          · exact { hentry with }
          · exact hentry

theorem spec_setField (t : List Char) (entry : LockfileEntry) :
    (setField t entry).name = entry.name ∧ (setField t entry).range = entry.range := by
  unfold setField
  repeat' split
  all_goals exact ⟨rfl, rfl⟩

theorem plainValue_empty : PlainValue "" := ⟨by decide, by decide, by decide⟩

theorem plainFields_empty : PlainFields emptyEntry where
  version := plainValue_empty
  resolved := plainValue_empty
  integrity := plainValue_empty
  dependencies := by intro pair hmem; cases hmem
  optionalDependencies := by intro pair hmem; cases hmem
  bin := by intro pair hmem; cases hmem
  scripts := by intro pair hmem; cases hmem
  os := by intro v hv; cases hv
  cpu := by intro v hv; cases hv

structure PlainState (st : ParseState) : Prop where
  entries : ∀ e ∈ st.entries.entries, SpecOf e.1 e.2 ∧ PlainFields e.2
  current : PlainFields st.currentEntry
  key : ∀ key, st.currentKey = some key → SpecOf key st.currentEntry

theorem plainState_init : PlainState .init :=
  ⟨fun e he => (by cases he), plainFields_empty, fun key hkey => (by cases hkey)⟩

theorem plainState_save (h : PlainState st) : PlainState (saveEntry st) := by
  unfold saveEntry
  split
  · exact h
  · rename_i key hkey
    refine ⟨fun e he => ?_, plainFields_empty, fun key hkey => (by cases hkey)⟩
    rcases SortedMap.mem_put he with heq | hold
    · rw [heq]
      exact ⟨h.key key hkey, h.current⟩
    · exact h.entries e hold

theorem plainState_line (h : PlainState st) {line : List Char} (hline : '\n' ∉ line)
    : PlainState (parseLine st line) := by
  have htrim : '\n' ∉ trim line := fun hmem => hline (mem_trimWhile hmem)
  unfold parseLine
  split
  · exact h
  · split
    · exact plainState_save h
    · split
      · unfold startEntry
        split
        · exact plainState_save h
        · rename_i name range hspec
          have hsaved := plainState_save h
          refine ⟨hsaved.entries, { hsaved.current with }, ?_⟩
          intro key hkey
          cases hkey
          refine ⟨?_, ?_, ?_⟩
          · rw [String.toList_ofList]
            exact fun hmem => htrim (dropLast_subset _ hmem)
          · intro c hc
            rw [String.toList_ofList] at hc
            refine head_trimWhile (s := line) ?_
            cases hlist : trim line with
            | nil =>
              rw [hlist] at hc
              cases hc
            | cons d ds =>
              rw [hlist] at hc
              rw [show trimWhile isWhitespace line = d :: ds from hlist]
              cases ds with
              | nil => cases hc
              | cons d' ds' => exact hc
          · simp only [String.toList_ofList]
            exact hspec
      · split
        · unfold entryLine
          split
          · exact ⟨h.entries, h.current, h.key⟩
          · split
            · refine ⟨h.entries, plainFields_addToSection htrim h.current, fun key hkey => ?_⟩
              have hsame := spec_addToSection ‹Section› (trim line) st.currentEntry
              exact specOf_congr (h.key key hkey) hsame.1 hsame.2
            · refine ⟨h.entries, plainFields_setField htrim h.current, fun key hkey => ?_⟩
              have hsame := spec_setField (trim line) st.currentEntry
              exact specOf_congr (h.key key hkey) hsame.1 hsame.2
        · exact h

theorem plainState_lines {ls : List (List Char)} (hls : ∀ l ∈ ls, '\n' ∉ l) (h : PlainState st)
    : PlainState (ls.foldl parseLine st) := by
  induction ls generalizing st with
  | nil => exact h
  | cons l ls ih =>
    exact ih (fun l hl => hls l (mem_cons_of_mem _ hl))
      (plainState_line h (hls l mem_cons_self))

/-- Every entry that is read has a spec key and plain fields. -/
theorem parse_plain (content : List Char) :
    ∀ e ∈ (parseLockfile content).entries.entries, SpecOf e.1 e.2 ∧ PlainFields e.2 :=
  (plainState_save (plainState_lines (newline_not_mem_lines content) plainState_init)).entries

/-! ### The text is read line by line as it was written -/

theorem isLine_quoted {pre : List Char} {v : String} (hpre : '\n' ∉ pre)
    (hv : '\n' ∉ v.toList) : IsLine (pre ++ quoted v) := by
  refine isLine_of_last ?_ (c := '"') ?_ (by decide)
  · rw [mem_append, not_or]
    exact ⟨hpre, newline_not_mem_quoted hv⟩
  · rw [getLast?_append, quoted_last]
    rfl

theorem isLine_fieldLine {field value : String} (hfield : '\n' ∉ field.toList)
    (hvalue : '\n' ∉ value.toList) : IsLine (fieldLine field value) := by
  have hsplit : fieldLine field value = ("  ".toList ++ field.toList ++ [' ']) ++ quoted value := by
    simp [fieldLine]
  rw [hsplit]
  exact isLine_quoted (by simp [hfield]) hvalue

theorem isLine_pairLine {pair : String × String} (hkey : '\n' ∉ pair.1.toList)
    (hvalue : '\n' ∉ pair.2.toList) : IsLine (pairLine pair) := by
  have hsplit : pairLine pair = ("    ".toList ++ quoted pair.1 ++ [' ']) ++ quoted pair.2 := by
    simp [pairLine]
  rw [hsplit]
  exact isLine_quoted (by simp [newline_not_mem_quoted hkey]) hvalue

theorem isLine_flagLine {flag : String} (hflag : '\n' ∉ flag.toList) (value : Bool) :
    ∀ l ∈ flagLine flag value, IsLine l := by
  intro l hl
  cases value with
  | false => cases hl
  | true =>
    rw [flagLine, if_pos rfl, mem_singleton] at hl
    rw [hl]
    refine isLine_of_last (c := 'e') ?_ ?_ (by decide)
    · simp [hflag]
    · rw [← append_assoc, getLast?_append]
      rfl

def sectionHeaders : List String :=
  ["dependencies:", "optionalDependencies:", "bin:", "scripts:", "os:", "cpu:"]

theorem forall_sectionLines {P : List Char → Prop} {header : String}
    (hheader : P (sectionLine header)) {body : List (List Char)} (hbody : ∀ l ∈ body, P l) :
    ∀ l ∈ sectionLines header body, P l := by
  intro l hl
  rw [sectionLines] at hl
  split at hl
  · cases hl
  · rcases mem_cons.mp hl with hl | hl
    · rw [hl]
      exact hheader
    · exact hbody l hl

theorem forall_entryLines {P : List Char → Prop} (hkey : P (keyLine key))
    (hfields : ∀ f ∈ [("version", entry.version), ("resolved", entry.resolved),
      ("integrity", entry.integrity)], P (fieldLine f.1 f.2))
    (hflags : ∀ flag ∈ ["optional", "overridden"], ∀ value, ∀ l ∈ flagLine flag value, P l)
    (hheaders : ∀ header ∈ sectionHeaders, P (sectionLine header))
    (hpairs : ∀ map ∈ [entry.dependencies, entry.optionalDependencies, entry.bin, entry.scripts],
      ∀ pair ∈ map.entries, P (pairLine pair))
    (hvalues : ∀ list ∈ [entry.os, entry.cpu], ∀ v ∈ list.getD [], P (valueLine v)) (hblank : P [])
    : ∀ l ∈ entryLines key entry, P l := by
  have hpair : ∀ header ∈ sectionHeaders,
      ∀ map ∈ [entry.dependencies, entry.optionalDependencies, entry.bin, entry.scripts],
      ∀ l ∈ sectionLines header (map.entries.map pairLine), P l := by
    intro header hheader map hmap
    exact forall_sectionLines (hheaders header hheader) (forall_mem_map.mpr (hpairs map hmap))
  have hvalue : ∀ header ∈ sectionHeaders, ∀ list ∈ [entry.os, entry.cpu],
      ∀ l ∈ sectionLines header ((list.getD []).map valueLine), P l := by
    intro header hheader list hlist
    exact forall_sectionLines (hheaders header hheader)
      (forall_mem_map.mpr (hvalues list hlist))
  simp only [entryLines, forall_mem_append]
  refine ⟨⟨⟨⟨⟨⟨⟨⟨⟨?_, ?_⟩, ?_⟩, ?_⟩, ?_⟩, ?_⟩, ?_⟩, ?_⟩, ?_⟩, ?_⟩
  · simp only [forall_mem_cons]
    exact ⟨hkey, hfields ("version", entry.version) (by simp),
      hfields ("resolved", entry.resolved) (by simp),
      hfields ("integrity", entry.integrity) (by simp),
      fun l hl => absurd hl not_mem_nil⟩
  · exact hflags "optional" (by simp) entry.optional
  · exact hflags "overridden" (by simp) entry.overridden
  · exact hpair "dependencies:" (by simp [sectionHeaders]) entry.dependencies (by simp)
  · exact hpair "optionalDependencies:" (by simp [sectionHeaders]) entry.optionalDependencies
      (by simp)
  · exact hpair "bin:" (by simp [sectionHeaders]) entry.bin (by simp)
  · exact hpair "scripts:" (by simp [sectionHeaders]) entry.scripts (by simp)
  · exact hvalue "os:" (by simp [sectionHeaders]) entry.os (by simp)
  · exact hvalue "cpu:" (by simp [sectionHeaders]) entry.cpu (by simp)
  · intro l hl
    rw [mem_singleton.mp hl]
    exact hblank

theorem PlainFields.maps (h : PlainFields entry) :
    ∀ map ∈ [entry.dependencies, entry.optionalDependencies, entry.bin, entry.scripts],
      PlainMap map := by
  simp only [forall_mem_cons]
  exact ⟨h.dependencies, h.optionalDependencies, h.bin, h.scripts,
    fun map hmap => absurd hmap not_mem_nil⟩

theorem isLine_entryLines (hkey : '\n' ∉ key.toList) (h : PlainFields entry)
    : ∀ l ∈ entryLines key entry, IsLine l := by
  refine forall_entryLines ?_ ?_ ?_ ?_ ?_ ?_ ?_
  · refine isLine_of_last (c := ':') (by simp [keyLine, hkey]) ?_ (by decide)
    rw [keyLine, getLast?_append]
    rfl
  · simp only [forall_mem_cons]
    exact ⟨isLine_fieldLine (by decide) h.version.1, isLine_fieldLine (by decide) h.resolved.1,
      isLine_fieldLine (by decide) h.integrity.1, fun f hf => absurd hf not_mem_nil⟩
  · intro flag hflag value
    refine isLine_flagLine ?_ value
    revert flag
    decide
  · intro header hheader
    refine isLine_of_last (c := ':') ?_ ?_ (by decide)
    · revert header
      decide
    · revert header
      decide
  · intro map hmap pair hpair
    have hplain := PlainFields.maps h map hmap pair hpair
    exact isLine_pairLine hplain.1.1 hplain.2.1
  · simp only [forall_mem_cons]
    exact ⟨fun v hv => isLine_quoted (by decide) (h.os v hv).1,
      fun v hv => isLine_quoted (by decide) (h.cpu v hv).1,
      fun list hlist => absurd hlist not_mem_nil⟩
  · exact ⟨not_mem_nil, rfl⟩

variable {lockfile : Lockfile}

theorem lines_writeLockfile (h : ∀ e ∈ lockfile.entries.entries, SpecOf e.1 e.2 ∧ PlainFields e.2) :
    lines (writeLockfile lockfile) = lockfileLines lockfile := by
  refine lines_unlines (fun l hl => ?_)
  rcases mem_append.mp hl with hl | hl
  · exact isLine_header l hl
  · rcases mem_cons.mp hl with hl | hl
    · rw [hl]
      exact ⟨not_mem_nil, rfl⟩
    · obtain ⟨e, he, hl⟩ := mem_flatMap.mp hl
      exact isLine_entryLines (h e he).1.line (h e he).2 l hl

/-! ### Keys that look like comments -/

structure NoComment (st : ParseState) : Prop where
  entries : ∀ e ∈ st.entries.entries, ¬ IsComment e.1
  key : ∀ key, st.currentKey = some key → ¬ IsComment key

theorem noComment_save (h : NoComment st) : NoComment (saveEntry st) := by
  unfold saveEntry
  split
  · exact h
  · rename_i key hkey
    refine ⟨fun e he => ?_, fun key hkey => (by cases hkey)⟩
    rcases SortedMap.mem_put he with heq | hold
    · rw [heq]
      exact h.key key hkey
    · exact h.entries e hold

/-- The line is indented with a space, or not at all. -/
def AtColumn (line : List Char) : Prop := ∀ c, line.head? = some c → isWhitespace c = true → c = ' '

theorem noComment_line (h : NoComment st) {line : List Char} (hline : AtColumn line)
    : NoComment (parseLine st line) := by
  unfold parseLine
  split
  · exact h
  · rename_i hhash
    split
    · exact noComment_save h
    · split
      · rename_i hkeyLine
        unfold startEntry
        split
        · exact noComment_save h
        · have hsaved := noComment_save h
          refine ⟨hsaved.entries, fun key hkey => ?_⟩
          cases hkey
          -- without indentation, the key starts as the line does
          intro hcomment
          rw [IsComment, String.toList_ofList] at hcomment
          have hhead : (trim line).head? = some '#' := by
            cases hlist : trim line with
            | nil =>
              rw [hlist] at hcomment
              cases hcomment
            | cons d ds =>
              rw [hlist] at hcomment
              cases ds with
              | nil => cases hcomment
              | cons d' ds' => exact hcomment
          have hdrop := head_of_trimWhile hhead
          cases hcase : line with
          | nil =>
            rw [hcase] at hdrop
            cases hdrop
          | cons c cs =>
            have hc : isWhitespace c = false := by
              by_contra hws
              have hspace := hline c (by rw [hcase]; rfl) (by simpa using hws)
              exact hkeyLine.1 (by rw [hcase, hspace]; rfl)
            rw [hcase, dropWhile_cons_of_neg (by simp [hc])] at hdrop
            exact hhash (by rw [hcase]; exact hdrop)
      · split
        · unfold entryLine
          repeat' split
          all_goals exact ⟨h.entries, h.key⟩
        · exact h

theorem noComment_lines {ls : List (List Char)} (hls : ∀ l ∈ ls, AtColumn l) (h : NoComment st)
    : NoComment (ls.foldl parseLine st) := by
  induction ls generalizing st with
  | nil => exact h
  | cons l ls ih =>
    exact ih (fun l hl => hls l (mem_cons_of_mem _ hl))
      (noComment_line h (hls l mem_cons_self))

theorem atColumn_of_space {l : List Char} (h : l.head? = some ' ') : AtColumn l := by
  intro c hc _
  rw [h] at hc
  exact (Option.some.inj hc).symm

theorem atColumn_entryLines (hspec : SpecOf key entry) :
    ∀ l ∈ entryLines key entry, AtColumn l := by
  refine forall_entryLines ?_ ?_ ?_ ?_ ?_ ?_ ?_
  · intro c hc hws
    have hne : key.toList ≠ [] := by
      intro hnil
      have hparse := hspec.spec
      rw [hnil] at hparse
      cases hparse
    obtain ⟨d, ds, hkey⟩ := exists_cons_of_ne_nil hne
    have hd : isWhitespace d = false := hspec.start d (by rw [hkey]; rfl)
    rw [keyLine, hkey] at hc
    cases hc
    rw [hd] at hws
    cases hws
  · exact fun _ _ => atColumn_of_space rfl
  · intro flag _ value l hl
    cases value with
    | false => cases hl
    | true =>
      rw [flagLine, if_pos rfl, mem_singleton] at hl
      rw [hl]
      exact atColumn_of_space rfl
  · exact fun _ _ => atColumn_of_space rfl
  · exact fun _ _ _ _ => atColumn_of_space rfl
  · exact fun _ _ _ _ => atColumn_of_space rfl
  · intro c hc
    cases hc

theorem noComment_parse (h : ∀ e ∈ lockfile.entries.entries, SpecOf e.1 e.2 ∧ PlainFields e.2) :
    ∀ e ∈ (parseLockfile (writeLockfile lockfile)).entries.entries, ¬ IsComment e.1 := by
  have hlines : ∀ l ∈ lines (writeLockfile lockfile), AtColumn l := by
    rw [lines_writeLockfile h]
    intro l hl
    rcases mem_append.mp hl with hl | hl
    · simp only [lockfileHeaderV2, mem_cons, not_mem_nil, or_false] at hl
      rcases hl with rfl | rfl <;>
      · intro c hc hws
        cases hc
        cases hws
    · rcases mem_cons.mp hl with hl | hl
      · rw [hl]
        intro c hc
        cases hc
      · obtain ⟨e, he, hl⟩ := mem_flatMap.mp hl
        exact atColumn_entryLines (h e he).1 l hl
  have hinit : NoComment .init := ⟨fun e he => (by cases he), fun key hkey => (by cases hkey)⟩
  exact (noComment_save (noComment_lines hlines hinit)).entries

/-! ### The round trip -/

theorem getD_dropEmpty (list : Option (List String)) :
    (dropEmpty list).getD [] = list.getD [] := by
  cases list with
  | none => rfl
  | some values => cases values <;> rfl

theorem plainFields_identify : PlainFields (identifyEntry entry) ↔ PlainFields entry := by
  have hos : PlainList (identifyEntry entry).os ↔ PlainList entry.os := by
    rw [PlainList, PlainList, identifyEntry, getD_dropEmpty]
  have hcpu : PlainList (identifyEntry entry).cpu ↔ PlainList entry.cpu := by
    rw [PlainList, PlainList, identifyEntry, getD_dropEmpty]
  constructor
  · intro h
    exact { h with os := hos.mp h.os, cpu := hcpu.mp h.cpu }
  · intro h
    exact { h with os := hos.mpr h.os, cpu := hcpu.mpr h.cpu }

theorem read_of_roundTrips (h : RoundTrips lockfile) {e : String × LockfileEntry}
    (he : e ∈ lockfile.entries.entries) :
    ∃ e' ∈ (parseLockfile (writeLockfile lockfile)).entries.entries,
      e'.1 = e.1 ∧ identifyEntry e'.2 = identifyEntry e.2 := by
  have hentries := congrArg (fun l => l.entries.entries) h.1
  have hmem : (e.1, identifyEntry e.2) ∈ (identify lockfile).entries.entries :=
    mem_map.mpr ⟨e, he, rfl⟩
  rw [← show (identify (parseLockfile (writeLockfile lockfile))).entries.entries =
    (identify lockfile).entries.entries from hentries] at hmem
  obtain ⟨e', he', heq⟩ := mem_map.mp hmem
  exact ⟨e', he', (Prod.mk.inj heq).1, (Prod.mk.inj heq).2⟩

theorem plain_of_roundTrips (h : RoundTrips lockfile) :
    ∀ e ∈ lockfile.entries.entries, SpecOf e.1 e.2 ∧ PlainFields e.2 := by
  intro e he
  obtain ⟨e', he', hkey, hentry⟩ := read_of_roundTrips h he
  obtain ⟨hspec, hplain⟩ := parse_plain _ e' he'
  have hname : e.2.name = e'.2.name := (congrArg LockfileEntry.name hentry).symm
  have hrange : e.2.range = e'.2.range := (congrArg LockfileEntry.range hentry).symm
  refine ⟨specOf_congr (hkey ▸ hspec) hname hrange, ?_⟩
  rw [← plainFields_identify, ← hentry, plainFields_identify]
  exact hplain

theorem entryLines_identify (key : String) (entry : LockfileEntry) :
    entryLines key (identifyEntry entry) = entryLines key entry := by
  simp only [entryLines, identifyEntry, getD_dropEmpty]

theorem write_identify (lockfile : Lockfile) :
    writeLockfile (identify lockfile) = writeLockfile lockfile := by
  simp only [writeLockfile, lockfileLines, identify, SortedMap.mapValues, flatMap_map,
    entryLines_identify]

theorem identify_identify (lockfile : Lockfile) :
    identify (identify lockfile) = identify lockfile := by
  have hdrop : ∀ list, dropEmpty (dropEmpty list) = dropEmpty list := by
    intro list
    cases list with
    | none => rfl
    | some values => cases values <;> rfl
  have hentry : ∀ entry, identifyEntry (identifyEntry entry) = identifyEntry entry := by
    intro entry
    simp only [identifyEntry, hdrop]
  simp only [identify, SortedMap.mapValues, map_map, Function.comp_def, hentry]

theorem parse_of_plain (h : Plain lockfile) :
    parseLockfile (writeLockfile lockfile) = identify lockfile := by
  have hlines := lines_writeLockfile (fun e he => ⟨(h.2 e he).1, (h.2 e he).2.2⟩)
  have hstate : (lines (writeLockfile lockfile)).foldl parseLine .init =
      ⟨(identify lockfile).entries, none, emptyEntry, none⟩ := by
    rw [hlines, lockfileLines, foldl_append, foldl_cons]
    show List.foldl parseLine ⟨.empty, none, emptyEntry, none⟩ _ = _
    rw [parse_blocks h.2]
    rw [show SortedMap.empty.insertAll (lockfile.entries.entries.map
      (fun e => (e.1, identifyEntry e.2))) = (identify lockfile).entries from
        (identify lockfile).entries.ofEntries_entries]
  have hversion := parseLockfileVersion_write lockfile
  rw [parseLockfile, hstate, hversion, ← h.1]
  rfl

/-- A lockfile is read back as it was written, and written again to the
same text, exactly when it is plain. -/
theorem round_trips_iff (lockfile : Lockfile) : RoundTrips lockfile ↔ Plain lockfile := by
  constructor
  · intro h
    have hplain := plain_of_roundTrips h
    have hversion := congrArg Lockfile.version h.1
    refine ⟨hversion.symm.trans (parseLockfileVersion_write lockfile), fun e he => ?_⟩
    obtain ⟨e', he', hkey, _⟩ := read_of_roundTrips h he
    exact ⟨(hplain e he).1, hkey ▸ noComment_parse hplain e' he', (hplain e he).2⟩
  · intro h
    refine ⟨?_, ?_⟩
    · rw [parse_of_plain h, identify_identify]
    · rw [parse_of_plain h, write_identify]

/-- A lockfile with one entry. -/
def lockfileOf (name range : String) (scripts : List (String × String)) : Lockfile where
  version := 2
  entries := .ofEntries [(Lockfile.specKey name range,
    { emptyEntry with
      name := name
      range := range
      version := "4.2.3"
      scripts := .ofEntries scripts })]

/-- A script with quotes is cut off at the first one, and the range of an
alias is split at its own `@`. -/
theorem quotes_and_aliases_lost :
    ¬ RoundTrips (lockfileOf "core-js" "^3.0.0" [("postinstall", "node -e \"1\"")]) ∧
    ¬ RoundTrips (lockfileOf "string-width-cjs" "npm:string-width@^4.2.0" []) := by
  refine ⟨fun h => ?_, fun h => ?_⟩
  · have hplain := (plain_of_roundTrips h _ (mem_singleton.mpr rfl)).2
    have hscript := hplain.scripts ("postinstall", "node -e \"1\"") (mem_singleton.mpr rfl)
    exact absurd hscript.2.2 (by decide)
  · have hspec := (plain_of_roundTrips h _ (mem_singleton.mpr rfl)).1.spec
    exact absurd hspec (by decide)

end Vertz.Proofs
