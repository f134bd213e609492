import Mathlib.Data.List.Induction
import Vertz.Db.Migration.Journal
import Vertz.Lib.Run

/-!
# `Vertz.Proofs.Renumbering`: the numbers suggested for colliding migrations

With `m` the largest number in use, the suggestions are `m + 1`, `m + 2` and
so on, as long as a double holds these numbers exactly. A file counts as
colliding if the journal's last entry of its number has another name, so a
file that is the last of several is passed over.
-/

namespace Vertz.Db.Migration

open List

variable {journal files : List Name} {used : List ℕ} {file : Name} {n : ℕ}

/-! ### Names there and back -/

theorem toNumber_of_le (h : n ≤ 2 ^ 53) : toNumber n = n := by
  rcases Nat.lt_or_eq_of_le h with hlt | rfl
  · have hlog : n.log2 - 52 = 0 := by
      by_cases hzero : n = 0
      · rw [hzero]; decide
      · have := (Nat.log2_lt hzero).mpr hlt
        omega
    simp [toNumber, hlog, Nat.mod_one]
  · simp only [toNumber, Nat.log2_two_pow]
    decide

theorem takeWhile_digits {digits rest : List Char} (h : ∀ c ∈ digits, c.isDigit = true) :
    (digits ++ '_' :: rest).takeWhile Char.isDigit = digits ∧
      (digits ++ '_' :: rest).dropWhile Char.isDigit = '_' :: rest := by
  rw [takeWhile_append_of_pos h, dropWhile_append_of_pos h]
  simp [show Char.isDigit '_' = false from rfl]

theorem beforeSql_append (description : List Char) :
    beforeSql (description ++ ".sql".toList) = some description := by
  have hlength : (description ++ ".sql".toList).length - 4 = description.length := by simp
  rw [beforeSql, hlength, drop_left, take_left]
  simp

/-- A formatted name is read back as its number. -/
theorem parse_format {description : List Char} (hn : n ≤ 2 ^ 53) (hne : description ≠ [])
    (hline : description.any isLineTerminator = false) :
    parseMigrationName (formatMigrationFilename n description) = some n := by
  have hdigits : ∀ c ∈ (Nat.toDigits 10 n).leftpad 4 '0', c.isDigit = true := by
    intro c hc
    rcases mem_append.mp hc with hzero | hdigit
    · rw [(mem_replicate.mp hzero).2]; rfl
    · exact Nat.isDigit_of_mem_toDigits (by decide) (by decide) hdigit
  have hvalue : Nat.ofDigitChars 10 ((Nat.toDigits 10 n).leftpad 4 '0') 0 = n := by
    rw [List.leftpad, Nat.ofDigitChars_append, Nat.ofDigitChars_replicate_zero, Nat.mul_zero,
      Nat.ofDigitChars_ten_toDigits]
  have ⟨htake, hdrop⟩ := @takeWhile_digits _ (description ++ ".sql".toList) hdigits
  have hleading : leadingNumber (formatMigrationFilename n description) =
      some ((Nat.toDigits 10 n).leftpad 4 '0', description ++ ".sql".toList) := by
    rw [leadingNumber, formatMigrationFilename, htake, hdrop]
    cases hpad : (Nat.toDigits 10 n).leftpad 4 '0' with
    | nil => simp [List.leftpad] at hpad
    | cons d ds => rfl
  simp only [parseMigrationName, hleading, Option.bind_eq_bind, Option.bind_some,
    beforeSql_append, hne, hline, or_self, Bool.false_eq_true, if_false, hvalue, toNumber_of_le hn]

/-- What a migration's name says behind its number can stand in another
migration's name. -/
theorem parse_suggested {m : ℕ} (h : parseMigrationName file = some m) (hn : n ≤ 2 ^ 53) :
    parseMigrationName (formatMigrationFilename n (descriptionOf file)) = some n := by
  simp only [parseMigrationName, Option.bind_eq_bind, Option.bind_eq_some_iff] at h
  obtain ⟨⟨digits, rest⟩, hleading, description, hsql, h⟩ := h
  have hdescription : descriptionOf file = description := by simp [descriptionOf, hleading, hsql]
  rw [hdescription]
  split at h
  · cases h
  · rename_i hbody
    rw [not_or] at hbody
    exact parse_format hn hbody.1 (by simpa using hbody.2)

/-! ### The loop -/

/-- The suggestions so far are the numbers that follow `m`, and the next
number is the one after them. -/
def Consecutive (used : List ℕ) (m : ℕ) (collisions : List CollisionInfo) : Prop :=
  collisions.map (fun c => parseMigrationName c.suggestedName) =
      (List.range' (m + 1) collisions.length).map some ∧
    (m + collisions.length + 1 ≤ 2 ^ 53 → nextSeq used collisions = m + collisions.length + 1)

theorem Consecutive.add {m : ℕ} {collisions : List CollisionInfo}
    (h : Consecutive used m collisions) (c : CollisionInfo)
    (hc : parseMigrationName c.suggestedName = some (m + collisions.length + 1))
    (hfits : m + collisions.length + 1 ≤ 2 ^ 53) : Consecutive used m (collisions ++ [c]) := by
  obtain ⟨hnames, hnext⟩ := h
  constructor
  · rw [map_append, hnames, length_append, length_singleton, range'_concat]
    simp [hc, Nat.add_right_comm]
  · intro hmore
    rw [length_append, length_singleton, ← Nat.add_assoc] at hmore ⊢
    have hstep : nextSeq used (collisions ++ [c]) =
        if nextSeq used collisions ≤ m + collisions.length + 1 then
          toNumber (m + collisions.length + 1 + 1) else nextSeq used collisions := by
      rw [nextSeq, foldl_append, foldl_cons, foldl_nil, hc]
      rfl
    rw [hstep, hnext hfits, if_pos (Nat.le_refl _), toNumber_of_le hmore]

def collides (journal : List Name) (file : Name) : Bool := (conflict journal file).isSome

theorem Consecutive.run {m : ℕ} {collisions : List CollisionInfo}
    (h : Consecutive used m collisions)
    (hfits : m + collisions.length + files.countP (collides journal) ≤ 2 ^ 53) :
    Consecutive used m (files.foldl (addCollision journal used) collisions) := by
  induction files generalizing collisions with
  | nil => exact h
  | cons file files ih =>
    rw [foldl_cons]
    rw [countP_cons] at hfits
    cases hconflict : conflict journal file with
    | none =>
      have hstep : addCollision journal used collisions file = collisions := by
        rw [addCollision, hconflict]
      rw [hstep]
      exact ih h (by omega)
    | some found =>
      have hone : collides journal file = true := by rw [collides, hconflict]; rfl
      rw [if_pos hone] at hfits
      have hnext := h.2 (by omega)
      obtain ⟨m', hm', -⟩ := Option.bind_eq_some_iff.mp hconflict
      have hstep : addCollision journal used collisions file = collisions ++ [⟨found.2, file,
          found.1, formatMigrationFilename (nextSeq used collisions) (descriptionOf file)⟩] := by
        rw [addCollision, hconflict]
      rw [hstep]
      refine ih (h.add _ ?_ (by omega)) (by simp; omega)
      rw [hnext]
      exact parse_suggested hm' (by omega)

theorem conflictingNames (collisions : List CollisionInfo) :
    (files.foldl (addCollision journal used) collisions).map CollisionInfo.conflictingName =
      collisions.map CollisionInfo.conflictingName ++ files.filter (collides journal) := by
  induction files generalizing collisions with
  | nil => simp
  | cons file files ih =>
    rw [foldl_cons, ih, filter_cons, collides, addCollision]
    cases conflict journal file <;> simp

theorem journalSeqNumbers_eq (journal : List Name) (n : ℕ) : journalSeqNumbers journal n =
    (journal.filter fun e => parseMigrationName e = some n).getLast? := by
  induction journal using List.reverseRecOn with
  | nil => rfl
  | append_singleton journal e ih =>
    rw [journalSeqNumbers, foldl_append, foldl_cons, foldl_nil,
      ← journalSeqNumbers, filter_append]
    cases he : parseMigrationName e with
    | none => simp [he, ih]
    | some k =>
      by_cases hk : n = k
      · simp [he, hk]
      · simp [he, hk, Ne.symm hk, ih]

theorem collides_iff : collides journal file = true ↔ ∃ n e, parseMigrationName file = some n ∧
    journalSeqNumbers journal n = some e ∧ e ≠ file := by
  have hne : ∀ n e, journalSeqNumbers journal n = some e → e ≠ [] := by
    intro n e he hnil
    rw [journalSeqNumbers_eq] at he
    have hmem := (mem_filter.mp (mem_of_getLast? he)).2
    rw [hnil] at hmem
    cases of_decide_eq_true hmem
  rw [collides, Option.isSome_iff_exists]
  simp only [conflict, Option.bind_eq_bind, Option.bind_eq_some_iff]
  constructor
  · rintro ⟨_, n, hn, e, he, h⟩
    split at h
    · rename_i hdiffers
      exact ⟨n, e, hn, he, hdiffers.2⟩
    · cases h
  · rintro ⟨n, e, hn, he, hdiffers⟩
    exact ⟨(n, e), n, hn, e, he, if_pos ⟨hne n e he, hdiffers⟩⟩

/-! ### The suggestions and the reports -/

/-- Every number up to the last suggestion is one that a double holds. -/
def SafeNumbers (journal files : List Name) : Prop :=
  (allUsedSeqNumbers journal files).foldl max 0 + files.countP (collides journal) ≤ 2 ^ 53

def SuggestionsFresh (journal files : List Name) : Prop :=
  ∃ ns : List ℕ, (detectCollisions journal files).map
      (fun c => parseMigrationName c.suggestedName) = ns.map some ∧
    ns.Nodup ∧ ∀ n ∈ ns, ∀ name ∈ journal ++ files, parseMigrationName name ≠ some n

/-- A file is reported if and only if a journal entry with another name has
its number. -/
def CollisionsReported (journal files : List Name) : Prop :=
  ∀ file ∈ files, (∃ c ∈ detectCollisions journal files, c.conflictingName = file) ↔
    ∃ e ∈ journal, e ≠ file ∧ ∃ n, parseMigrationName file = some n ∧ parseMigrationName e = some n

/-- No file is the last journal entry of a number that an entry with another
name has as well. -/
def NoneOverwritten (journal files : List Name) : Prop :=
  ∀ file ∈ files, ∀ n, parseMigrationName file = some n →
    journalSeqNumbers journal n = some file →
      ∀ e ∈ journal, parseMigrationName e = some n → e = file

theorem suggestions_fresh (hsafe : SafeNumbers journal files) :
    SuggestionsFresh journal files := by
  generalize hm : (allUsedSeqNumbers journal files).foldl max 0 = m
  rw [SafeNumbers, hm] at hsafe
  have hinit : Consecutive (allUsedSeqNumbers journal files) m [] :=
    ⟨rfl, fun h => by rw [nextSeq, foldl_nil, hm]; exact toNumber_of_le h⟩
  have hrun : Consecutive (allUsedSeqNumbers journal files) m (detectCollisions journal files) :=
    hinit.run hsafe
  refine ⟨_, hrun.1, nodup_range', ?_⟩
  intro n hn name hname hparse
  have hused : n ∈ allUsedSeqNumbers journal files := by
    rw [allUsedSeqNumbers, ← filterMap_append]
    exact mem_filterMap.mpr ⟨name, hname, hparse⟩
  have hle : n ≤ m := by
    rw [← hm]
    exact (Lib.le_foldl_max _ 0).2 n hused
  have := (mem_range'_1.mp hn).1
  omega

theorem reported_iff : CollisionsReported journal files ↔ NoneOverwritten journal files := by
  have hnames : ∀ file, (∃ c ∈ detectCollisions journal files, c.conflictingName = file) ↔
      file ∈ files ∧ collides journal file = true := by
    intro file
    rw [← mem_map, detectCollisions, conflictingNames, map_nil, nil_append,
      mem_filter]
  unfold CollisionsReported NoneOverwritten
  simp only [hnames]
  constructor
  · intro h file hfile n hn hlast e he hen
    by_contra hdiffers
    obtain ⟨-, hcollides⟩ := (h file hfile).mpr ⟨e, he, hdiffers, n, hn, hen⟩
    obtain ⟨n', e', hn', he', hne⟩ := collides_iff.mp hcollides
    rw [hn] at hn'
    cases hn'
    rw [hlast] at he'
    cases he'
    exact hne rfl
  · intro h file hfile
    constructor
    · rintro ⟨-, hcollides⟩
      obtain ⟨n, e, hn, he, hdiffers⟩ := collides_iff.mp hcollides
      rw [journalSeqNumbers_eq] at he
      have hmem := mem_filter.mp (mem_of_getLast? he)
      exact ⟨e, hmem.1, hdiffers, n, hn, of_decide_eq_true hmem.2⟩
    · rintro ⟨e, he, hdiffers, n, hn, hen⟩
      refine ⟨hfile, collides_iff.mpr ?_⟩
      -- the number is in the map, and under it is not the file itself
      cases hlast : journalSeqNumbers journal n with
      | none =>
        rw [journalSeqNumbers_eq, getLast?_eq_none_iff, filter_eq_nil_iff] at hlast
        exact absurd (decide_eq_true hen) (hlast e he)
      | some last =>
        refine ⟨n, last, hn, hlast, fun heq => ?_⟩
        rw [heq] at hlast
        exact hdiffers (h file hfile n hn hlast e he hen)

/-- The files, each of the colliding ones under its suggested name. -/
def renamed (journal files : List Name) : List Name :=
  files.map fun file =>
    match (detectCollisions journal files).find? fun c => c.conflictingName = file with
    | some c => c.suggestedName
    | none => file

theorem detectCollisions_names (journal files : List Name) :
    (detectCollisions journal files).map CollisionInfo.conflictingName =
      files.filter (collides journal) := by
  rw [detectCollisions, conflictingNames, map_nil, nil_append]

variable {dir : MigrationsDir} {m : ℕ}

/-- The journal lists files, and `m` is their largest number. -/
structure Numbered (dir : MigrationsDir) (m : ℕ) : Prop where
  listed : dir.journal ⊆ dir.files
  largest : (dir.files.filterMap parseMigrationName).foldl max 0 = m

theorem Numbered.le (h : Numbered dir m) {name : Name} (hname : name ∈ dir.files)
    (hn : parseMigrationName name = some n) : n ≤ m := by
  rw [← h.largest]
  exact (Lib.le_foldl_max _ 0).2 n (mem_filterMap.mpr ⟨name, hname, hn⟩)

theorem foldl_largerNumber (files : List Name) (k : ℕ) :
    files.foldl largerNumber k = (files.filterMap parseMigrationName).foldl max k := by
  induction files generalizing k with
  | nil => rfl
  | cons file files ih =>
    rw [foldl_cons, ih, filterMap_cons, largerNumber]
    cases parseMigrationName file with
    | none => rfl
    | some n =>
      rw [foldl_cons]
      congr 1
      show (if k < n then n else k) = max k n
      split <;> omega

theorem Numbered.next (h : Numbered dir m) (hfits : m + 1 ≤ 2 ^ 53) :
    nextMigrationNumber dir.files = m + 1 := by
  rw [nextMigrationNumber, foldl_largerNumber, h.largest, toNumber_of_le hfits]

/-- A migration that is written gets the next number. -/
theorem Numbered.migrateDev (h : Numbered dir m) (hfits : m + 1 ≤ 2 ^ 53) {name : List Char}
    (hne : name ≠ []) (hline : name.any isLineTerminator = false) :
    ∃ filename, parseMigrationName filename = some (m + 1) ∧
      migrateDev dir name false = ⟨dir.journal ++ [filename], dir.files ++ [filename]⟩ ∧
      Numbered ⟨dir.journal ++ [filename], dir.files ++ [filename]⟩ (m + 1) := by
  have hparse := parse_format (n := m + 1) hfits hne hline
  have hnew : formatMigrationFilename (m + 1) name ∉ dir.files := by
    intro hmem
    have := h.le hmem hparse
    omega
  refine ⟨formatMigrationFilename (m + 1) name, hparse, ?_, ?_, ?_⟩
  · simp only [Migration.migrateDev, h.next hfits, hnew, Bool.false_eq_true, if_false]
  · exact append_subset.mpr
      ⟨List.Subset.trans h.listed (subset_append_left _ _), subset_append_right _ _⟩
  · rw [filterMap_append, foldl_append, h.largest]
    simp [hparse]

/-- A file with a number of its own collides with nothing, and nothing
with it. -/
theorem Numbered.collides (h : Numbered dir m) {filename : Name}
    (hparse : parseMigrationName filename = some (m + 1)) :
    (dir.files ++ [filename]).filter (collides (dir.journal ++ [filename])) =
      dir.files.filter (collides dir.journal) := by
  have hmap : ∀ n, n ≤ m → journalSeqNumbers (dir.journal ++ [filename]) n =
      journalSeqNumbers dir.journal n := by
    intro n hn
    have hne : m + 1 ≠ n := by omega
    rw [journalSeqNumbers_eq, journalSeqNumbers_eq, filter_append]
    simp [hparse, hne]
  have hlast : journalSeqNumbers (dir.journal ++ [filename]) (m + 1) = some filename := by
    rw [journalSeqNumbers_eq, filter_append]
    simp [hparse]
  have hfree : Migration.collides (dir.journal ++ [filename]) filename = false := by
    refine Bool.eq_false_iff.mpr fun hcollides => ?_
    obtain ⟨n, e, hn, he, hdiffers⟩ := collides_iff.mp hcollides
    rw [hparse] at hn
    cases hn
    rw [hlast] at he
    cases he
    exact hdiffers rfl
  have hold : ∀ file ∈ dir.files, Migration.collides (dir.journal ++ [filename]) file =
      Migration.collides dir.journal file := by
    intro file hfile
    rw [Bool.eq_iff_iff, collides_iff, collides_iff]
    constructor
    all_goals
      rintro ⟨n, e, hn, he, hdiffers⟩
      have hmap := hmap n (h.le hfile hn)
      exact ⟨n, e, hn, by simpa only [hmap] using he, hdiffers⟩
  rw [filter_append, filter_congr hold]
  simp [hfree]

def runDev (dir : MigrationsDir) (steps : List (List Char × Bool)) : MigrationsDir :=
  steps.foldl (fun dir step => migrateDev dir step.1 step.2) dir

/-- The run writes migrations with the next numbers, and no file comes to
collide that did not before. -/
def CreatesFresh (dir : MigrationsDir) (steps : List (List Char × Bool)) : Prop :=
  ∃ created, runDev dir steps = ⟨dir.journal ++ created, dir.files ++ created⟩ ∧
    created.map parseMigrationName =
      (range' (dir.files.foldl largerNumber 0 + 1) (steps.countP fun step => !step.2)).map some ∧
    (detectCollisions (runDev dir steps).journal (runDev dir steps).files).map
        CollisionInfo.conflictingName =
      (detectCollisions dir.journal dir.files).map CollisionInfo.conflictingName

end Vertz.Db.Migration
