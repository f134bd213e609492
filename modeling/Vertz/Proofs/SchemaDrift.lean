import Vertz.Schema.JsonSchema

/-!
# `Vertz.Proofs.SchemaDrift`: what a JSON Schema accepts

`validates` is the meaning of the keywords that are emitted, by the JSON
Schema specification: a keyword says nothing about values of another
type, a length of a text counts its code points, and `items` is about the
elements behind the prefix.

A schema and its JSON Schema part where validation checks something that
is not published, or publishes it differently. `SlipFree` says of a
schema and a value that no such check is met on the way.
-/

namespace Vertz.Spec

open Option hiding all_map
open Vertz.Lib
open Vertz.Schema

/-! ### Validity -/

def hasType : TypeName → Js → Bool
  | .string, .str _ => true
  | .number, .num _ => true
  | .integer, .num q => q.den == 1
  | .boolean, .bool _ => true
  | .array, .arr _ => true
  | .object, .obj _ => true
  | .null, .null => true
  | _, _ => false

def typeHolds : TypeKeyword → Js → Bool
  | .absent, _ => true
  | .one name, v => hasType name v
  | .many names, v => names.any fun name => hasType name v

section

-- whether a text has a match of a pattern
variable (isMatch : String → String → Bool)

/-- The keywords about one type of values. -/
def boundsHold (k : Keywords) : Js → Bool
  | .num q =>
    k.minimum.all (fun n => n ≤ q) && k.exclusiveMinimum.all (fun n => n < q) &&
      k.maximum.all (fun n => q ≤ n) && k.exclusiveMaximum.all (fun n => q < n) &&
      k.multipleOf.all fun n => (q / n).den == 1
  | .str s =>
    k.minLength.all (fun n => n ≤ (s.length : ℚ)) &&
      k.maxLength.all (fun n => (s.length : ℚ) ≤ n) && k.pattern.all fun p => isMatch p s
  | .arr xs =>
    k.minItems.all (fun n => n ≤ (xs.length : ℚ)) &&
      k.maxItems.all fun n => (xs.length : ℚ) ≤ n
  | .obj entries => k.required.all fun key => (Record.lookup key entries).isSome
  | _ => true

def keywordsHold (k : Keywords) (v : Js) : Bool :=
  typeHolds k.type v && k.const.all (fun c => v = c) &&
    k.enum.all (fun values => match v with
      | .str s => values.contains s
      | _ => false) &&
    boundsHold isMatch k v

mutual

/-- Whether a value is valid against a JSON Schema. -/
def validates : JSONSchemaObject → Js → Bool
  | .mk k prefixItems items properties additional anyOf allOf, v =>
    keywordsHold isMatch k v &&
      (match v with
        | .arr xs =>
          validatesPrefix prefixItems xs &&
            validatesAdditional items (xs.drop prefixItems.length)
        | .obj entries =>
          validatesProperties properties entries &&
            validatesAdditional additional
              ((entries.filter fun e => !(properties.map Prod.fst).contains e.1).map Prod.snd)
        | _ => true) &&
      (match anyOf with
        | none => true
        | some options => validatesAny options v) &&
      validatesAll allOf v

def validatesPrefix : List JSONSchemaObject → List Js → Bool
  | [], _ => true
  | _, [] => true
  | s :: ss, x :: xs => validates s x && validatesPrefix ss xs

def validatesAdditional : Additional → List Js → Bool
  | .absent, _ => true
  | .no, xs => xs.isEmpty
  | .schema s, xs => xs.all fun x => validates s x

def validatesProperties : List (String × JSONSchemaObject) → List (String × Js) → Bool
  | [], _ => true
  | (key, s) :: rest, entries =>
    (match Record.lookup key entries with
      | none => true
      | some v => validates s v) && validatesProperties rest entries

def validatesAny : List JSONSchemaObject → Js → Bool
  | [], _ => false
  | s :: ss, v => validates s v || validatesAny ss v

def validatesAll : List JSONSchemaObject → Js → Bool
  | [], _ => true
  | s :: ss, v => validates s v && validatesAll ss v

end

/-! ### JSON values -/

mutual

/-- A value JSON can write: nothing in it is `undefined`. -/
def isJson : Js → Bool
  | .undefined => false
  | .arr xs => areJson xs
  | .obj entries => entriesJson entries
  | _ => true

def areJson : List Js → Bool
  | [] => true
  | x :: xs => isJson x && areJson xs

def entriesJson : List (String × Js) → Bool
  | [] => true
  | (_, x) :: entries => isJson x && entriesJson entries

end

/-! ### Checks that are not published -/

variable (rt : Runtime)

/-- The checks of a string beside its bounds and its pattern hold, the
bounds count the same, and the pattern says what the expression says. -/
def StringQuiet (c : StringChecks) (s : String) : Prop :=
  (∀ n, c.length = some n → (utf16Length s : ℚ) = n) ∧
    (∀ p, c.startsWith = some p → p.toList.isPrefixOf s.toList = true) ∧
    (∀ p, c.endsWith = some p → p.toList.isSuffixOf s.toList = true) ∧
    (∀ p, c.includes = some p → p.toList <:+: s.toList) ∧
    (c.uppercase = true → s = rt.toUpperCase s) ∧ (c.lowercase = true → s = rt.toLowerCase s) ∧
    (c.min.isSome ∨ c.max.isSome → utf16Length s = s.length) ∧
    ∀ r, c.regex = some r → rt.test r s = isMatch r.source s

/-- The signs asked of a number are its signs, and it is not asked to be
a multiple of zero. -/
def NumberQuiet (c : NumberChecks) (q : ℚ) : Prop :=
  (c.positive = true → 0 < q) ∧ (c.negative = true → q < 0) ∧
    (c.nonnegative = true → 0 ≤ q) ∧ (c.nonpositive = true → q ≤ 0) ∧ c.multipleOf ≠ some 0

/-- An array of the exact length is within the other bounds as well. -/
def ArrayQuiet (c : ArrayChecks) (length : ℕ) : Prop :=
  ∀ n, c.length = some n → (length : ℚ) = n →
    (∀ m, c.min = some m → m ≤ (length : ℚ)) ∧ ∀ m, c.max = some m → (length : ℚ) ≤ m

mutual

/-- No check that is published differently, or not at all, is met. -/
def SlipFree : Schema → Js → Prop
  | .string c, .str s => StringQuiet isMatch rt c s
  | .number c, .num q => NumberQuiet c q
  | .array element c, .arr xs => ArrayQuiet c xs.length ∧ ∀ x ∈ xs, SlipFree element x
  | .tuple items rest, .arr xs =>
    items.length ≤ xs.length ∧ SlipFreeItems items xs ∧ SlipFreeRest rest (xs.drop items.length)
  | .object shape _ catchall, .obj entries =>
    SlipFreeShape shape entries ∧ SlipFreeUnknown catchall (unknownEntries shape entries)
  | .union options, v => SlipFreeOptions options v
  | .intersection left right, v => SlipFree left v ∧ SlipFree right v
  | .optional inner, v => SlipFree inner v
  | .nullable inner, v => SlipFree inner v
  | .default inner _, v => SlipFree inner v
  | _, _ => True

def SlipFreeItems : List Schema → List Js → Prop
  | [], _ => True
  | _, [] => True
  | item :: items, x :: xs => SlipFree item x ∧ SlipFreeItems items xs

def SlipFreeRest : Option Schema → List Js → Prop
  | none, _ => True
  | some rest, xs => ∀ x ∈ xs, SlipFree rest x

/-- A key that is left out is not one every object inherits, unless it is
required, and the default put in its place is valid. -/
def SlipFreeShape : List (String × Schema) → List (String × Js) → Prop
  | [], _ => True
  | (key, schema) :: shape, entries =>
    key ≠ "__proto__" ∧
      (match Record.lookup key entries with
        | some v => SlipFree schema v
        | none => (isOptionalKey schema = true → inherited key = none) ∧ FilledIn schema) ∧
      SlipFreeShape shape entries

def FilledIn : Schema → Prop
  | .default inner d =>
    isJson d = true ∧ validates isMatch (toJSONSchema inner) d = true ∧ SlipFree inner d
  | _ => True

/-- A catchall is not run on a key `__proto__`. -/
def SlipFreeUnknown : Option Schema → List (String × Js) → Prop
  | none, _ => True
  | some catchall, unknown => ∀ e ∈ unknown, e.1 ≠ "__proto__" ∧ SlipFree catchall e.2

def SlipFreeOptions : List Schema → Js → Prop
  | [], _ => True
  | option :: options, v => SlipFree option v ∧ SlipFreeOptions options v

end

/-! ### Agreement -/

/-- Whether validation succeeds. -/
def parseAccepts (s : Schema) (v : Js) : Prop := (parse rt s (.value v) []).2 = []

/-- Validation and the published JSON Schema agree on a value. -/
def AgreesWithSchema (s : Schema) (v : Js) : Prop :=
  parseAccepts rt s v ↔ validates isMatch (toJSONSchema s) v = true

/-- A check of the schema itself that validation makes and its JSON Schema
does not: a sign or an unpublished check of a text, a bound beside an
exact length, the length of a tuple, a key every object inherits, a
default that is not valid. -/
inductive Unpublished : Schema → Js → Prop where
  | sign {c : NumberChecks} {q : ℚ} : ¬ NumberQuiet c q → Unpublished (.number c) (.num q)
  | text {c : StringChecks} {s : String} : (∃ n, c.length = some n ∧ (utf16Length s : ℚ) ≠ n) ∨
      (∃ p, c.startsWith = some p ∧ p.toList.isPrefixOf s.toList = false) ∨
      (∃ p, c.endsWith = some p ∧ p.toList.isSuffixOf s.toList = false) ∨
      (∃ p, c.includes = some p ∧ ¬ p.toList <:+: s.toList) ∨
      (c.uppercase = true ∧ s ≠ rt.toUpperCase s) ∨
      (c.lowercase = true ∧ s ≠ rt.toLowerCase s) → Unpublished (.string c) (.str s)
  | bound {element : Schema} {c : ArrayChecks} {xs : List Js} : ¬ ArrayQuiet c xs.length →
      Unpublished (.array element c) (.arr xs)
  | short {items : List Schema} {rest : Option Schema} {xs : List Js} :
      xs.length < items.length → Unpublished (.tuple items rest) (.arr xs)
  | inherited {shape : List (String × Schema)} {mode : UnknownKeyMode}
      {catchall : Option Schema} {entries : List (String × Js)} {key : String} {s : Schema} :
      (key, s) ∈ shape → Record.lookup key entries = none → key ≠ "__proto__" →
      (Schema.inherited key).isSome = true →
        Unpublished (.object shape mode catchall) (.obj entries)
  | filledIn {shape : List (String × Schema)} {mode : UnknownKeyMode}
      {catchall : Option Schema} {entries : List (String × Js)} {key : String} {inner : Schema}
      {d : Js} : (key, .default inner d) ∈ shape → Record.lookup key entries = none →
      Schema.inherited key = none → isJson d = true → SlipFree isMatch rt inner d →
      validates isMatch (toJSONSchema inner) d = false →
        Unpublished (.object shape mode catchall) (.obj entries)

end

end Vertz.Spec

/-!
## Validation against the published JSON Schema

* `agrees_string`, `agrees_number`, `lengths_agree`: the checks of one
  class against the keywords they are published as.
* `validates_nullableOf`: a schema made nullable accepts `null` as well.
* `parse_function`: a function an object inherits is never accepted.
* `parse_agrees`: by induction on the schema, validation and validity
  agree where no slip is met.
* `unpublished_rejects`: a check that is not published rejects the value.
-/

namespace Vertz.Proofs

open Option hiding all_eq_true all_map
open Vertz.Lib
open Vertz.Schema
open Vertz.Spec List

variable {isMatch : String → String → Bool} {rt : Runtime}

/-! ### Issues -/

variable {path : Path}

theorem issueIf_nil {failed : Bool} {code : ErrorCode} {message : String} :
    issueIf failed code message path = [] ↔ failed = false := by
  unfold issueIf
  cases failed <;> simp

/-- A bound that is not given is kept; one that is given is. -/
theorem any_false_iff_all (failed holds : ℚ → Bool) (h : ∀ q, failed q = !holds q)
    (n : Option ℚ) : n.any failed = false ↔ n.all holds = true := by
  cases n with
  | none => simp
  | some q => simp [h]

/-! ### Leaves -/

theorem validates_plain (k : Keywords) (v : Js) :
    validates isMatch (.plain k) v = keywordsHold isMatch k v := by
  unfold JSONSchemaObject.plain
  cases v <;>
    simp [validates, validatesPrefix, validatesAdditional, validatesProperties, validatesAll]

theorem any_lt_iff (q : ℚ) (n : Option ℚ) :
    (n.any fun m => decide (q < m)) = false ↔ (n.all fun m => decide (m ≤ q)) = true :=
  any_false_iff_all _ _ (fun m => by rw [← decide_not, decide_eq_decide, not_le]) n

theorem any_gt_iff (q : ℚ) (n : Option ℚ) :
    (n.any fun m => decide (m < q)) = false ↔ (n.all fun m => decide (q ≤ m)) = true :=
  any_false_iff_all _ _ (fun m => by rw [← decide_not, decide_eq_decide, not_le]) n

theorem any_le_iff (q : ℚ) (n : Option ℚ) :
    (n.any fun m => decide (q ≤ m)) = false ↔ (n.all fun m => decide (m < q)) = true :=
  any_false_iff_all _ _ (fun m => by rw [← decide_not, decide_eq_decide, not_lt]) n

theorem any_ge_iff (q : ℚ) (n : Option ℚ) :
    (n.any fun m => decide (m ≤ q)) = false ↔ (n.all fun m => decide (q < m)) = true :=
  any_false_iff_all _ _ (fun m => by rw [← decide_not, decide_eq_decide, not_lt]) n

theorem stringIssues_nil {c : StringChecks} {s : String} (hquiet : StringQuiet isMatch rt c s) :
    stringIssues rt c s path = [] ↔ boundsHold isMatch (stringKeywords c) (.str s) = true := by
  obtain ⟨hlength, hstarts, hends, hincludes, hupper, hlower, hcount, hregex⟩ := hquiet
  have hlength' : (c.length.any fun n => decide ((utf16Length s : ℚ) ≠ n)) = false := by
    cases hc : c.length with
    | none => rfl
    | some n => simp [hlength n hc]
  have hstarts' : (c.startsWith.any fun p => !p.toList.isPrefixOf s.toList) = false := by
    cases hc : c.startsWith with
    | none => rfl
    | some p => simp [hstarts p hc]
  have hends' : (c.endsWith.any fun p => !p.toList.isSuffixOf s.toList) = false := by
    cases hc : c.endsWith with
    | none => rfl
    | some p => simp [hends p hc]
  have hincludes' : (c.includes.any fun p => !decide (p.toList <:+: s.toList)) = false := by
    cases hc : c.includes with
    | none => rfl
    | some p => simp [hincludes p hc]
  have hupper' : (c.uppercase && s != rt.toUpperCase s) = false := by
    cases hc : c.uppercase with
    | false => rfl
    | true => simpa using hupper hc
  have hlower' : (c.lowercase && s != rt.toLowerCase s) = false := by
    cases hc : c.lowercase with
    | false => rfl
    | true => simpa using hlower hc
  have hregex' : (c.regex.any fun r => !rt.test r s) = false ↔
      ((c.regex.map Regex.source).all fun p => isMatch p s) = true := by
    cases hc : c.regex with
    | none => simp
    | some r => simp [hregex r hc]
  have hmin : (c.min.any fun n => decide ((utf16Length s : ℚ) < n)) = false ↔
      (c.min.all fun n => decide (n ≤ (s.length : ℚ))) = true := by
    cases hc : c.min with
    | none => simp
    | some n =>
      have hsame : utf16Length s = s.length := hcount (.inl (by rw [hc]; rfl))
      rw [hsame]
      exact any_lt_iff _ (some n)
  have hmax : (c.max.any fun n => decide (n < (utf16Length s : ℚ))) = false ↔
      (c.max.all fun n => decide ((s.length : ℚ) ≤ n)) = true := by
    cases hc : c.max with
    | none => simp
    | some n =>
      have hsame : utf16Length s = s.length := hcount (.inr (by rw [hc]; rfl))
      rw [hsame]
      exact any_gt_iff _ (some n)
  unfold stringIssues boundsHold stringKeywords
  simp only [append_eq_nil_iff, issueIf_nil, hlength', hstarts', hends', hincludes', hupper',
    hlower', hregex', hmin, hmax, Bool.and_eq_true, and_true]

theorem agrees_string (c : StringChecks) (v : Js) (path : Path)
    (hfree : SlipFree isMatch rt (.string c) v) :
    (parse rt (.string c) (.value v) path).2 = [] ↔
      validates isMatch (toJSONSchema (.string c)) v = true := by
  rw [toJSONSchema, validates_plain, parse]
  cases v with
  | str s =>
    rw [SlipFree] at hfree
    show stringIssues rt c s path = [] ↔ _
    rw [stringIssues_nil hfree]
    unfold keywordsHold stringKeywords
    simp [typeHolds, hasType]
  | _ => simp [parseString, keywordsHold, stringKeywords, typeHolds, hasType]

theorem numberIssues_nil {c : NumberChecks} {q : ℚ} (hquiet : NumberQuiet c q) :
    numberIssues rt c q path = [] ↔ keywordsHold isMatch (numberKeywords c) (.num q) = true := by
  obtain ⟨hpositive, hnegative, hnonnegative, hnonpositive, hzero⟩ := hquiet
  have hpositive' : (c.positive && decide (q ≤ 0)) = false := by
    cases hc : c.positive with
    | false => rfl
    | true => simpa using hpositive hc
  have hnegative' : (c.negative && decide (0 ≤ q)) = false := by
    cases hc : c.negative with
    | false => rfl
    | true => simpa using hnegative hc
  have hnonnegative' : (c.nonnegative && decide (q < 0)) = false := by
    cases hc : c.nonnegative with
    | false => rfl
    | true => simpa using hnonnegative hc
  have hnonpositive' : (c.nonpositive && decide (0 < q)) = false := by
    cases hc : c.nonpositive with
    | false => rfl
    | true => simpa using hnonpositive hc
  have hmultiple : (c.multipleOf.any fun n => !isMultipleOf q n) = false ↔
      (c.multipleOf.all fun n => (q / n).den == 1) = true := by
    cases hc : c.multipleOf with
    | none => simp
    | some n =>
      have hn : n ≠ 0 := by
        rintro rfl
        exact hzero hc
      simp [isMultipleOf, hn]
  have hint : (c.int && q.den != 1) = false ↔
      hasType (if c.int then .integer else .number) (.num q) = true := by
    cases c.int <;> simp [hasType]
  unfold numberIssues keywordsHold boundsHold numberKeywords
  simp only [append_eq_nil_iff, issueIf_nil, hpositive', hnegative', hnonnegative',
    hnonpositive', hmultiple, hint, any_lt_iff, any_le_iff, any_gt_iff, any_ge_iff,
    Bool.and_eq_true, and_true, typeHolds, all_none]
  constructor
  · rintro ⟨⟨⟨⟨⟨hgte, hgt⟩, hlte⟩, hlt⟩, htype⟩, hof⟩
    exact ⟨htype, ⟨⟨⟨hgte, hgt⟩, hlte⟩, hlt⟩, hof⟩
  · rintro ⟨htype, ⟨⟨⟨hgte, hgt⟩, hlte⟩, hlt⟩, hof⟩
    exact ⟨⟨⟨⟨⟨hgte, hgt⟩, hlte⟩, hlt⟩, htype⟩, hof⟩

theorem agrees_number (c : NumberChecks) (v : Js) (path : Path)
    (hfree : SlipFree isMatch rt (.number c) v) :
    (parse rt (.number c) (.value v) path).2 = [] ↔
      validates isMatch (toJSONSchema (.number c)) v = true := by
  rw [toJSONSchema, validates_plain, parse]
  cases v with
  | num q =>
    rw [SlipFree] at hfree
    exact numberIssues_nil hfree
  | _ =>
    simp only [parseNumber, keywordsHold, numberKeywords, typeHolds]
    cases c.int <;> simp [hasType]

/-- The bounds of an array against the published ones. -/
theorem lengths_agree {c : ArrayChecks} {length : ℕ} (hquiet : ArrayQuiet c length) :
    lengthIssues rt c length path = [] ↔
      ((c.length.or c.min).all (fun n => decide (n ≤ (length : ℚ))) &&
        (c.length.or c.max).all fun n => decide ((length : ℚ) ≤ n)) = true := by
  unfold lengthIssues
  simp only [append_eq_nil_iff, issueIf_nil]
  cases hl : c.length with
  | none =>
    rw [any_lt_iff, any_gt_iff, none_or, none_or, Bool.and_eq_true]
    simp
  | some n =>
    rw [some_or, some_or]
    by_cases hn : (length : ℚ) = n
    · -- an array of the exact length is within the other bounds
      obtain ⟨hmin, hmax⟩ := hquiet n hl hn
      have hmin' : (c.min.any fun m => decide ((length : ℚ) < m)) = false := by
        cases hc : c.min with
        | none => rfl
        | some m => simpa using hmin m hc
      have hmax' : (c.max.any fun m => decide (m < (length : ℚ))) = false := by
        cases hc : c.max with
        | none => rfl
        | some m => simpa using hmax m hc
      rw [hmin', hmax']
      simp [hn]
    · have hbounds : ¬ (n ≤ (length : ℚ) ∧ (length : ℚ) ≤ n) := fun h =>
        hn (le_antisymm h.2 h.1)
      simp only [any_some, all_some, Bool.and_eq_true, decide_eq_true_eq,
        decide_eq_false_iff_not, not_not]
      exact ⟨fun h => absurd h.2 hn, fun h => absurd h hbounds⟩

/-! ### Nullable schemas -/

/-- A JSON Schema with one type name says nothing about `null` besides. -/
def NamedOnly (j : JSONSchemaObject) : Prop :=
  ∀ name, j.keywords.type = .one name →
    ∃ k prefixItems items properties additional,
      j = .mk k prefixItems items properties additional none [] ∧ k.const = none ∧ k.enum = none

theorem namedOnly_withDefault {j : JSONSchemaObject} (h : NamedOnly j) (d : Option Js) :
    NamedOnly (j.withKeywords fun k => { k with default := d }) := by
  intro name hname
  obtain ⟨k, prefixItems, items, properties, additional, anyOf, allOf⟩ := j
  obtain ⟨k', _, _, _, _, heq, hconst, henum⟩ := h name hname
  cases heq
  exact ⟨_, _, _, _, _, rfl, hconst, henum⟩

theorem namedOnly_nullableOf (j : JSONSchemaObject) : NamedOnly (nullableOf j) := by
  intro name hname
  obtain ⟨k, prefixItems, items, properties, additional, anyOf, allOf⟩ := j
  unfold nullableOf at hname
  cases htype : k.type with
  | one name' =>
    simp [JSONSchemaObject.keywords, htype, JSONSchemaObject.withKeywords] at hname
  | absent => simp [JSONSchemaObject.keywords, htype] at hname
  | many names => simp [JSONSchemaObject.keywords, htype] at hname

theorem namedOnly_toJSONSchema : ∀ s : Schema, NamedOnly (toJSONSchema s)
  | .string _ => fun _ _ => ⟨_, _, _, _, _, rfl, rfl, rfl⟩
  | .number _ => fun _ _ => ⟨_, _, _, _, _, rfl, rfl, rfl⟩
  | .boolean => fun _ _ => ⟨_, _, _, _, _, rfl, rfl, rfl⟩
  | .literal _ => fun _ h => by cases h
  | .enum _ => fun _ h => by cases h
  | .array _ _ => fun _ _ => ⟨_, _, _, _, _, rfl, rfl, rfl⟩
  | .tuple _ _ => fun _ _ => ⟨_, _, _, _, _, rfl, rfl, rfl⟩
  | .object _ _ _ => fun _ _ => ⟨_, _, _, _, _, rfl, rfl, rfl⟩
  | .union _ => fun _ h => by cases h
  | .intersection _ _ => fun _ h => by cases h
  | .optional inner => by
      rw [toJSONSchema]
      exact namedOnly_toJSONSchema inner
  | .nullable inner => by
      rw [toJSONSchema]
      exact namedOnly_nullableOf _
  | .default inner d => by
      rw [toJSONSchema]
      exact namedOnly_withDefault (namedOnly_toJSONSchema inner) _

theorem validates_withDefault (j : JSONSchemaObject) (d : Option Js) (v : Js) :
    validates isMatch (j.withKeywords fun k => { k with default := d }) v
      = validates isMatch j v := by
  obtain ⟨k, prefixItems, items, properties, additional, anyOf, allOf⟩ := j
  cases v <;> rfl

theorem validates_nullableOf {j : JSONSchemaObject} (h : NamedOnly j) (v : Js) :
    validates isMatch (nullableOf j) v = (hasType .null v || validates isMatch j v) := by
  cases htype : j.keywords.type with
  | one name =>
    obtain ⟨k, prefixItems, items, properties, additional, rfl, hconst, henum⟩ := h name htype
    have hk : k.type = .one name := htype
    unfold nullableOf
    rw [htype]
    show validates isMatch (.mk { k with type := .many [name, .null] } _ _ _ _ _ _) v = _
    cases v with
    | null =>
      simp [validates, keywordsHold, typeHolds, hasType, hconst, henum, boundsHold,
        validatesAll]
    | _ =>
      simp [validates, keywordsHold, typeHolds, hasType, hconst, henum, hk, boundsHold]
  | absent =>
    unfold nullableOf
    rw [htype]
    dsimp only
    cases v <;>
      simp [validates, keywordsHold, typeHolds, boundsHold, validatesAny, validatesAll,
        validates_plain, validatesPrefix, validatesAdditional, validatesProperties, hasType]
  | many names =>
    unfold nullableOf
    rw [htype]
    dsimp only
    cases v <;>
      simp [validates, keywordsHold, typeHolds, boundsHold, validatesAny, validatesAll,
        validates_plain, validatesPrefix, validatesAdditional, validatesProperties, hasType]

/-! ### Inherited functions -/

mutual

theorem parse_function (source : String) : (s : Schema) → (path : Path) →
    (parse rt s (.function source) path).2 ≠ []
  | .string _, path => by simp [parse, parseString]
  | .number _, path => by simp [parse, parseNumber]
  | .boolean, path => by simp [parse, parseBoolean]
  | .literal _, path => by simp [parse, parseLiteral, isLiteral, issueIf]
  | .enum _, path => by simp [parse, parseEnum, isEnumValue, issueIf]
  | .array _ _, path => by simp [parse]
  | .tuple _ _, path => by simp [parse]
  | .object _ _ _, path => by simp [parse]
  | .union options, path => by
      rw [parse, parseOptions_function source options]
      exact cons_ne_nil _ _
  | .intersection left right, path => by
      have hleft := parse_function source left []
      have hempty : (parse rt left (.function source) []).2.isEmpty = false := by
        simpa using hleft
      rw [parse]
      simp [hempty]
  | .optional inner, path => by
      rw [parse]
      · exact parse_function source inner path
      · exact fun h => by cases h
  | .nullable inner, path => by
      rw [parse]
      · exact parse_function source inner path
      · exact fun h => by cases h
  | .default inner _, path => by
      rw [parse]
      · exact parse_function source inner path
      · exact fun h => by cases h

theorem parseOptions_function (source : String) : (options : List Schema) →
    parseOptions rt options (.function source) = none
  | [] => by rw [parseOptions]
  | option :: options => by
      have hempty : (parse rt option (.function source) []).2.isEmpty = false := by
        simpa using parse_function source option []
      rw [parseOptions]
      simp [hempty, parseOptions_function source options]

end

theorem inherited_function {key : String} {v : Input} (hkey : key ≠ "__proto__")
    (h : Schema.inherited key = some v) : ∃ source, v = .function source := by
  unfold Schema.inherited at h
  rw [if_neg hkey] at h
  split at h
  · cases h
    exact ⟨_, rfl⟩
  · split at h
    · cases h
      exact ⟨_, rfl⟩
    · cases h

/-! ### Values -/

theorem areJson_iff (xs : List Js) : areJson xs = true ↔ ∀ x ∈ xs, isJson x = true := by
  induction xs with
  | nil => simp [areJson]
  | cons x xs ih => simp [areJson, ih]

theorem entriesJson_iff (entries : List (String × Js)) :
    entriesJson entries = true ↔ ∀ e ∈ entries, isJson e.2 = true := by
  induction entries with
  | nil => simp [entriesJson]
  | cons e entries ih =>
    obtain ⟨key, x⟩ := e
    simp [entriesJson, ih]

theorem isJson_arr {xs : List Js} (h : isJson (.arr xs) = true) : ∀ x ∈ xs, isJson x = true := by
  rw [isJson] at h
  exact (areJson_iff xs).mp h

variable {entries : List (String × Js)}

theorem isJson_obj (h : isJson (.obj entries) = true) : ∀ e ∈ entries, isJson e.2 = true := by
  rw [isJson] at h
  exact (entriesJson_iff entries).mp h

/-! ### Lists of schemas -/

theorem itemSchemas_eq (items : List Schema) : itemSchemas items = items.map toJSONSchema := by
  induction items with
  | nil => rfl
  | cons item items ih => rw [itemSchemas, ih, map_cons]

theorem properties_names {shape : List (String × Schema)} (h : ∀ e ∈ shape, e.1 ≠ "__proto__") :
    (properties shape).map Prod.fst = shape.map Prod.fst := by
  induction shape with
  | nil => rfl
  | cons e shape ih =>
    obtain ⟨key, s⟩ := e
    rw [forall_mem_cons] at h
    rw [properties, if_neg h.1, map_cons, map_cons, ih h.2]

theorem slipFreeShape_keys :
    ∀ {shape : List (String × Schema)}, SlipFreeShape isMatch rt shape entries →
      ∀ e ∈ shape, e.1 ≠ "__proto__"
  | [], _, _, h => by cases h
  | (key, s) :: shape, hfree, e, he => by
      rw [SlipFreeShape] at hfree
      rcases mem_cons.mp he with rfl | he
      · exact hfree.1
      · exact slipFreeShape_keys hfree.2.2 e he

theorem flatMap_issues_nil {α : Type} {xs : List (α × List ValidationIssue)} :
    xs.flatMap Prod.snd = [] ↔ ∀ x ∈ xs, x.2 = [] := by
  rw [flatMap_eq_nil_iff]

/-- Elements are parsed without issues when each of them is valid. -/
theorem elements_agree {element : Schema} {xs : List Js} (place : ℕ → Path) {valid : Js → Bool}
    (h : ∀ x ∈ xs, ∀ path, (parse rt element (.value x) path).2 = [] ↔ valid x = true) :
    (xs.zipIdx.map fun (x, i) => parse rt element (.value x) (place i)).flatMap Prod.snd = [] ↔
      xs.all valid = true := by
  rw [flatMap_issues_nil, all_eq_true]
  constructor
  · intro hall x hx
    obtain ⟨i, hi, rfl⟩ := mem_iff_getElem.mp hx
    have hmem : (xs[i], i) ∈ xs.zipIdx := by
      rw [mk_mem_zipIdx_iff_getElem?]
      exact getElem?_eq_getElem hi
    exact (h xs[i] hx (place i)).mp (hall _ (mem_map.mpr ⟨_, hmem, rfl⟩))
  · intro hall p hp
    obtain ⟨⟨x, i⟩, hxi, rfl⟩ := mem_map.mp hp
    have hx : x ∈ xs := by
      rw [mk_mem_zipIdx_iff_getElem?] at hxi
      exact mem_of_getElem? hxi
    exact (h x hx (place i)).mpr (hall x hx)

/-! ### Keys that are left out -/

section

variable {key : String} {entries : List (String × Js)} {shape : List (String × Schema)}
  {path : Path}

theorem parseShape_inherited {s : Schema} {source : String}
    (hlookup : Record.lookup key entries = none)
    (hin : Schema.inherited key = some (.function source)) :
    (parseShape rt ((key, s) :: shape) entries path).2 ≠ [] := by
  rw [parseShape, hlookup, map_none, none_or, hin]
  exact fun h => parse_function source s _ (append_eq_nil_iff.mp h).1

section

variable (hlookup : Record.lookup key entries = none) (hin : Schema.inherited key = none)

include hlookup hin

theorem parseShape_missing {s : Schema} (hs : isOptionalKey s = false) :
    (parseShape rt ((key, s) :: shape) entries path).2 ≠ [] := by
  rw [parseShape, hlookup, map_none, none_or, hin]
  cases s with
  | optional inner => cases hs
  | default inner d => cases hs
  | _ => exact cons_ne_nil _ _

theorem parseShape_optional {inner : Schema} :
    (parseShape rt ((key, .optional inner) :: shape) entries path).2
      = (parseShape rt shape entries path).2 := by
  rw [parseShape, hlookup, map_none, none_or, hin]

theorem parseShape_default {inner : Schema} {d : Js} :
    (parseShape rt ((key, .default inner d) :: shape) entries path).2
      = (parse rt inner (.value d) (path ++ [.key key])).2 ++
        (parseShape rt shape entries path).2 := by
  rw [parseShape, hlookup, map_none, none_or, hin]
  dsimp only
  rw [parse]

end

end

/-! ### Agreement -/

mutual

/-- Where no slip is met, validation and validity agree. The induction is
on the schema; the path is of no matter. -/
theorem parse_agrees : (s : Schema) → (v : Js) → (path : Path) → isJson v = true →
    SlipFree isMatch rt s v →
    ((parse rt s (.value v) path).2 = [] ↔ validates isMatch (toJSONSchema s) v = true)
  | .string c, v, path, _, hfree => agrees_string c v path hfree
  | .number c, v, path, _, hfree => agrees_number c v path hfree
  | .boolean, v, path, _, _ => by
      rw [toJSONSchema, validates_plain, parse]
      cases v <;> simp [parseBoolean, keywordsHold, typeHolds, hasType, boundsHold]
  | .literal l, v, path, _, _ => by
      rw [toJSONSchema, validates_plain, parse]
      have hbounds : boundsHold isMatch { const := some l.toJs } v = true := by
        cases v <;> simp [boundsHold]
      simp [parseLiteral, issueIf_nil, isLiteral, keywordsHold, typeHolds, hbounds]
  | .enum values, v, path, _, _ => by
      rw [toJSONSchema, validates_plain, parse]
      cases v <;> simp [parseEnum, issueIf_nil, isEnumValue, keywordsHold, typeHolds, boundsHold]
  | .array element c, v, path, hjson, hfree => by
      rw [toJSONSchema]
      cases v with
      | arr xs =>
        rw [SlipFree] at hfree
        have helements := elements_agree (fun i => path ++ [.index i])
          (fun x hx path' => parse_agrees element x path' (isJson_arr hjson x hx)
            (hfree.2 x hx))
        rw [parse]
        show lengthIssues rt c xs.length path ++ _ = [] ↔ _
        rw [append_eq_nil_iff, lengths_agree hfree.1, helements]
        simp [validates, keywordsHold, typeHolds, hasType, arrayKeywords, boundsHold,
          validatesPrefix, validatesAdditional, validatesAll]
      | _ => simp [parse, validates, keywordsHold, typeHolds, hasType, arrayKeywords]
  | .tuple items rest, v, path, hjson, hfree => by
      rw [toJSONSchema]
      cases v with
      | arr xs =>
        rw [SlipFree] at hfree
        obtain ⟨hlength, hitems, hrest⟩ := hfree
        have hbegins := parseItems_agrees items xs 0 path (isJson_arr hjson) hlength hitems
        have hdrop : ∀ x ∈ xs.drop items.length, isJson x = true := fun x hx =>
          isJson_arr hjson x (mem_of_mem_drop hx)
        have hbehind := parseRest_agrees rest (xs.drop items.length) items.length path hdrop hrest
        have hcount : (itemSchemas items).length = items.length := by
          rw [itemSchemas_eq, length_map]
        rw [parse]
        show (issueIf _ _ _ _ ++ issueIf _ _ _ _) ++ _ ++ _ = [] ↔ _
        rw [append_eq_nil_iff, append_eq_nil_iff, append_eq_nil_iff, issueIf_nil,
          issueIf_nil, hbegins]
        have hvalid : validates isMatch (.mk { type := .one .array } (itemSchemas items)
              (restSchema rest) [] .absent none []) (.arr xs)
            = (validatesPrefix isMatch (itemSchemas items) xs &&
              validatesAdditional isMatch (restSchema rest) (xs.drop items.length)) := by
          simp [validates, keywordsHold, typeHolds, hasType, boundsHold, validatesAll, hcount]
        rw [hvalid, Bool.and_eq_true]
        have hshort : decide (xs.length < items.length) = false :=
          decide_eq_false (Nat.not_lt.mpr hlength)
        cases rest with
        | none =>
          -- without a rest the array ends with the items
          rw [parseRest, restSchema, validatesAdditional, List.isEmpty_iff,
            drop_eq_nil_iff]
          simp only [isNone_none, Bool.true_and, bne_eq_false_iff_eq,
            isSome_none, Bool.false_and, and_true]
          constructor
          · rintro ⟨heq, hvalid⟩
            exact ⟨hvalid, heq.le⟩
          · rintro ⟨hvalid, hle⟩
            exact ⟨le_antisymm hle hlength, hvalid⟩
        | some r =>
          rw [hbehind r rfl]
          simp [hshort]
      | _ => simp [parse, validates, keywordsHold, typeHolds, hasType]
  | .object shape mode catchall, v, path, hjson, hfree => by
      rw [toJSONSchema]
      cases v with
      | obj entries =>
        rw [SlipFree] at hfree
        obtain ⟨hshape, hunknown⟩ := hfree
        have hkeys := slipFreeShape_keys hshape
        have hknown := parseShape_agrees shape entries path (isJson_obj hjson) hshape
        have hextra := parseUnknown_agrees catchall mode (unknownEntries shape entries) path
          (fun e he => isJson_obj hjson e (mem_filter.mp he).1) hunknown
        rw [parse]
        show (parseShape rt shape entries path).2 ++ _ = [] ↔ _
        rw [append_eq_nil_iff, hknown, hextra]
        simp only [validates, keywordsHold, typeHolds, hasType, boundsHold, validatesAll,
          properties_names hkeys, all_none, Bool.true_and, Bool.and_true,
          Bool.and_eq_true, all_eq_true]
        unfold unknownEntries
        constructor
        · rintro ⟨⟨hvalid, hrequired⟩, hrest⟩
          exact ⟨hrequired, hvalid, hrest⟩
        · rintro ⟨hrequired, hvalid, hrest⟩
          exact ⟨⟨hvalid, hrequired⟩, hrest⟩
      | _ => simp [parse, validates, keywordsHold, typeHolds, hasType]
  | .union options, v, path, hjson, hfree => by
      rw [SlipFree] at hfree
      have hoptions := parseOptions_agrees options v hjson hfree
      have hvalid : validates isMatch (toJSONSchema (.union options)) v
          = validatesAny isMatch (itemSchemas options) v := by
        rw [toJSONSchema]
        cases v <;> simp [validates, keywordsHold, typeHolds, boundsHold, validatesAll,
          validatesPrefix, validatesAdditional, validatesProperties]
      rw [hvalid, ← hoptions, parse]
      cases parseOptions rt options (.value v) <;> simp
  | .intersection left right, v, path, hjson, hfree => by
      rw [SlipFree] at hfree
      have hleft := parse_agrees left v [] hjson hfree.1
      have hright := parse_agrees right v [] hjson hfree.2
      have hvalid : validates isMatch (toJSONSchema (.intersection left right)) v
          = (validates isMatch (toJSONSchema left) v &&
            validates isMatch (toJSONSchema right) v) := by
        rw [toJSONSchema]
        cases v <;> simp [validates, keywordsHold, typeHolds, boundsHold, validatesAll,
          validatesPrefix, validatesAdditional, validatesProperties]
      rw [hvalid, Bool.and_eq_true, ← hleft, ← hright, parse]
      by_cases hl : (parse rt left (.value v) []).2 = []
      · by_cases hr : (parse rt right (.value v) []).2 = []
        · simp [hl, hr]
        · simp [hl, hr]
      · simp [hl]
  | .optional inner, v, path, hjson, hfree => by
      rw [SlipFree] at hfree
      rw [toJSONSchema, ← parse_agrees inner v path hjson hfree, parse]
      rintro h
      cases h
      cases hjson
  | .nullable inner, v, path, hjson, hfree => by
      rw [SlipFree] at hfree
      rw [toJSONSchema, validates_nullableOf (namedOnly_toJSONSchema inner)]
      cases v with
      | null => simp [parse, hasType]
      | _ =>
        have hinner := parse_agrees inner _ path hjson hfree
        rw [parse]
        · simpa [hasType] using hinner
        · exact fun h => by cases h
  | .default inner d, v, path, hjson, hfree => by
      rw [SlipFree] at hfree
      rw [toJSONSchema, validates_withDefault, ← parse_agrees inner v path hjson hfree, parse]
      rintro h
      cases h
      cases hjson

theorem parseItems_agrees : (items : List Schema) → (xs : List Js) → (i : ℕ) → (path : Path) →
    (∀ x ∈ xs, isJson x = true) → items.length ≤ xs.length → SlipFreeItems isMatch rt items xs →
    ((parseItems rt items xs i path).2 = [] ↔
      validatesPrefix isMatch (itemSchemas items) xs = true)
  | [], xs, i, path, _, _, _ => by simp [parseItems, itemSchemas, validatesPrefix]
  | item :: items, [], i, path, _, hlength, _ => by simp at hlength
  | item :: items, x :: xs, i, path, hjson, hlength, hfree => by
      rw [SlipFreeItems] at hfree
      rw [forall_mem_cons] at hjson
      have hitem := parse_agrees item x (path ++ [.index i]) hjson.1 hfree.1
      have hitems := parseItems_agrees items xs (i + 1) path hjson.2 (by simpa using hlength)
        hfree.2
      rw [parseItems, itemSchemas, validatesPrefix, Bool.and_eq_true, ← hitem, ← hitems]
      exact append_eq_nil_iff

theorem parseRest_agrees : (rest : Option Schema) → (xs : List Js) → (n : ℕ) → (path : Path) →
    (∀ x ∈ xs, isJson x = true) → SlipFreeRest isMatch rt rest xs → ∀ r, rest = some r →
    ((parseRest rt rest xs n path).2 = [] ↔
      validatesAdditional isMatch (restSchema rest) xs = true)
  | none, xs, n, path, _, _ => fun r h => by cases h
  | some rest, xs, n, path, hjson, hfree => fun r _ => by
      rw [SlipFreeRest] at hfree
      rw [parseRest, restSchema, validatesAdditional]
      exact elements_agree (fun i => path ++ [.index (n + i)]) fun x hx path' =>
        parse_agrees rest x path' (hjson x hx) (hfree x hx)

theorem parseShape_agrees : (shape : List (String × Schema)) → (entries : List (String × Js)) →
    (path : Path) → (∀ e ∈ entries, isJson e.2 = true) →
    SlipFreeShape isMatch rt shape entries →
    ((parseShape rt shape entries path).2 = [] ↔
      validatesProperties isMatch (properties shape) entries = true ∧
        ∀ key ∈ requiredKeys shape, (Record.lookup key entries).isSome = true)
  | [], entries, path, _, _ => by
      simp [parseShape, properties, validatesProperties, requiredKeys]
  | (key, s) :: shape, entries, path, hjson, hfree => by
      rw [SlipFreeShape] at hfree
      obtain ⟨hkey, hhere, hshape⟩ := hfree
      have hrest := parseShape_agrees shape entries path hjson hshape
      rw [properties, if_neg hkey, validatesProperties]
      have hrequired : (∀ k ∈ requiredKeys ((key, s) :: shape),
            (Record.lookup k entries).isSome = true) ↔
          (isOptionalKey s = false → (Record.lookup key entries).isSome = true) ∧
            ∀ k ∈ requiredKeys shape, (Record.lookup k entries).isSome = true := by
        unfold requiredKeys
        cases hs : isOptionalKey s <;> simp [hs]
      rw [hrequired]
      cases hlookup : Record.lookup key entries with
      | some v =>
        rw [hlookup] at hhere
        have hv : isJson v = true := hjson (key, v) (Record.mem_of_lookup hlookup)
        have hs := parse_agrees s v (path ++ [.key key]) hv hhere
        have hissues : (parseShape rt ((key, s) :: shape) entries path).2
            = (parse rt s (.value v) (path ++ [.key key])).2 ++
              (parseShape rt shape entries path).2 := by
          rw [parseShape, hlookup]
          rfl
        rw [hissues, append_eq_nil_iff, hs, hrest, Bool.and_eq_true]
        simp only [isSome_some, implies_true, true_and]
        exact and_assoc.symm
      | none =>
        rw [hlookup] at hhere
        obtain ⟨hinherited, hfilled⟩ := hhere
        rw [Bool.true_and]
        cases hoptional : isOptionalKey s with
        | false =>
          -- a required key is missed, be it inherited or not
          have hissue : (parseShape rt ((key, s) :: shape) entries path).2 ≠ [] := by
            cases hin : Schema.inherited key with
            | none => exact parseShape_missing hlookup hin hoptional
            | some v =>
              obtain ⟨source, rfl⟩ := inherited_function hkey hin
              exact parseShape_inherited hlookup hin
          refine ⟨fun h => absurd h hissue, fun h => ?_⟩
          exact absurd (h.2.1 rfl) (by decide)
        | true =>
          have hnone := hinherited hoptional
          have hissues : (parseShape rt ((key, s) :: shape) entries path).2 = [] ↔
              (parseShape rt shape entries path).2 = [] := by
            cases s with
            | optional inner =>
              rw [parseShape_optional hlookup hnone]
            | default inner d =>
              rw [FilledIn] at hfilled
              have hd := parse_agrees inner d (path ++ [.key key]) hfilled.1 hfilled.2.2
              rw [parseShape_default hlookup hnone, append_eq_nil_iff, hd]
              exact ⟨fun h => h.2, fun h => ⟨hfilled.2.1, h⟩⟩
            | _ => cases hoptional
          rw [hissues, hrest]
          simp

theorem parseUnknown_agrees : (catchall : Option Schema) → (mode : UnknownKeyMode) →
    (unknown : List (String × Js)) → (path : Path) → (∀ e ∈ unknown, isJson e.2 = true) →
    SlipFreeUnknown isMatch rt catchall unknown →
    ((parseUnknown rt catchall mode unknown path).2 = [] ↔
      validatesAdditional isMatch (additionalProperties mode catchall) (unknown.map Prod.snd)
        = true)
  | some catchall, mode, unknown, path, hjson, hfree => by
      rw [SlipFreeUnknown] at hfree
      have hall : (unknown.filter fun e => e.1 != "__proto__") = unknown :=
        filter_eq_self.mpr fun e he => bne_iff_ne.mpr (hfree e he).1
      rw [parseUnknown, hall, additionalProperties, validatesAdditional]
      show (unknown.map _).flatMap Prod.snd = [] ↔ _
      rw [flatMap_issues_nil, all_map, all_eq_true]
      constructor
      · intro hissues e he
        have hnil := hissues _ (mem_map.mpr ⟨e, he, rfl⟩)
        exact (parse_agrees catchall e.2 _ (hjson e he) (hfree e he).2).mp hnil
      · intro hvalid p hp
        obtain ⟨e, he, rfl⟩ := mem_map.mp hp
        exact (parse_agrees catchall e.2 _ (hjson e he) (hfree e he).2).mpr (hvalid e he)
  | none, .strict, unknown, path, _, _ => by
      rw [parseUnknown, additionalProperties, validatesAdditional, issueIf_nil]
      cases unknown <;> simp
  | none, .passthrough, unknown, path, _, _ => by
      simp [parseUnknown, additionalProperties, validatesAdditional]
  | none, .strip, unknown, path, _, _ => by
      simp [parseUnknown, additionalProperties, validatesAdditional]

theorem parseOptions_agrees : (options : List Schema) → (v : Js) → isJson v = true →
    SlipFreeOptions isMatch rt options v →
    ((parseOptions rt options (.value v)).isSome = true ↔
      validatesAny isMatch (itemSchemas options) v = true)
  | [], v, _, _ => by simp [parseOptions, itemSchemas, validatesAny]
  | option :: options, v, hjson, hfree => by
      rw [SlipFreeOptions] at hfree
      have hoption := parse_agrees option v [] hjson hfree.1
      have hoptions := parseOptions_agrees options v hjson hfree.2
      rw [parseOptions, itemSchemas, validatesAny, Bool.or_eq_true, ← hoption, ← hoptions]
      by_cases hempty : (parse rt option (.value v) []).2 = []
      · simp [hempty]
      · have hne : (parse rt option (.value v) []).2.isEmpty = false := by simpa using hempty
        simp [hempty]

end

/-! ### Checks that are not published -/

theorem numberQuiet_of_nil {c : NumberChecks} {q : ℚ} (h : numberIssues rt c q path = []) :
    NumberQuiet c q := by
  unfold numberIssues at h
  simp only [append_eq_nil_iff, issueIf_nil, Bool.and_eq_false_iff,
    decide_eq_false_iff_not] at h
  obtain ⟨⟨⟨⟨⟨-, hpositive⟩, hnegative⟩, hnonnegative⟩, hnonpositive⟩, hmultiple⟩ := h
  refine ⟨fun hc => ?_, fun hc => ?_, fun hc => ?_, fun hc => ?_, fun hc => ?_⟩
  · rw [hc] at hpositive
    simpa using hpositive
  · rw [hc] at hnegative
    simpa using hnegative
  · rw [hc] at hnonnegative
    simpa using hnonnegative
  · rw [hc] at hnonpositive
    simpa using hnonpositive
  · rw [hc] at hmultiple
    simp [isMultipleOf] at hmultiple

theorem arrayQuiet_of_nil {c : ArrayChecks} {length : ℕ} (h : lengthIssues rt c length path = []) :
    ArrayQuiet c length := by
  unfold lengthIssues at h
  simp only [append_eq_nil_iff, issueIf_nil] at h
  obtain ⟨⟨hmin, hmax⟩, -⟩ := h
  refine fun n _ _ => ⟨fun m hm => ?_, fun m hm => ?_⟩
  · rw [hm] at hmin
    simpa using hmin
  · rw [hm] at hmax
    simpa using hmax

/-- A key of a shape that adds an issue adds it to the whole. -/
theorem parseShape_ne_nil {e : String × Schema} :
    ∀ {shape : List (String × Schema)}, e ∈ shape →
      (∀ rest, (parseShape rt (e :: rest) entries path).2 ≠ []) →
        (parseShape rt shape entries path).2 ≠ []
  | [], he, _ => by cases he
  | (key, s) :: shape, he, h => by
      rcases mem_cons.mp he with rfl | he
      · exact h shape
      · intro hnil
        refine parseShape_ne_nil he h ?_
        -- whatever the key adds comes before the rest
        rw [parseShape] at hnil
        cases hfound : ((Record.lookup key entries).map Input.value).or (Schema.inherited key) with
        | some v =>
          rw [hfound] at hnil
          exact (append_eq_nil_iff.mp hnil).2
        | none =>
          rw [hfound] at hnil
          cases s with
          | default inner d => exact (append_eq_nil_iff.mp hnil).2
          | optional inner => exact hnil
          | _ => cases hnil

theorem unpublished_rejects {s : Schema} {v : Js} (h : Unpublished isMatch rt s v) :
    ¬ parseAccepts rt s v := by
  unfold parseAccepts
  cases h with
  | sign hquiet =>
    rw [parse]
    exact fun hnil => hquiet (numberQuiet_of_nil hnil)
  | text hfails =>
    rw [parse]
    intro hnil
    replace hnil : stringIssues rt _ _ [] = [] := hnil
    unfold stringIssues at hnil
    simp only [append_eq_nil_iff, issueIf_nil] at hnil
    obtain ⟨⟨⟨⟨⟨⟨-, hlength⟩, -⟩, hstarts⟩, hends⟩, hincludes⟩, hupper⟩ := hnil.1
    have hlower := hnil.2
    rcases hfails with ⟨n, hn, hne⟩ | ⟨p, hp, hno⟩ | ⟨p, hp, hno⟩ | ⟨p, hp, hno⟩ | ⟨hc, hne⟩ |
      ⟨hc, hne⟩
    · rw [hn] at hlength
      simp [hne] at hlength
    · rw [hp] at hstarts
      simp [hno] at hstarts
    · rw [hp] at hends
      simp [hno] at hends
    · rw [hp] at hincludes
      simp [hno] at hincludes
    · rw [hc] at hupper
      exact hne (by simpa using hupper)
    · rw [hc] at hlower
      exact hne (by simpa using hlower)
  | bound hquiet =>
    rw [parse]
    exact fun hnil => hquiet (arrayQuiet_of_nil (append_eq_nil_iff.mp hnil).1)
  | @short items rest xs hshort =>
    rw [parse]
    intro hnil
    have hlength := (append_eq_nil_iff.mp (append_eq_nil_iff.mp hnil).1).1
    rw [append_eq_nil_iff, issueIf_nil, issueIf_nil] at hlength
    have hne : xs.length ≠ items.length := by omega
    cases rest with
    | none => simp [hne] at hlength
    | some r => simp [hshort] at hlength
  | inherited hmem hlookup hkey hin =>
    obtain ⟨v, hv⟩ := isSome_iff_exists.mp hin
    obtain ⟨source, rfl⟩ := inherited_function hkey hv
    rw [parse]
    intro hnil
    exact parseShape_ne_nil hmem (fun rest => parseShape_inherited hlookup hv)
      (append_eq_nil_iff.mp hnil).1
  | @filledIn shape mode catchall entries key inner d hmem hlookup hin hjson hfree hinvalid =>
    rw [parse]
    intro hnil
    refine parseShape_ne_nil hmem (fun rest hrest => ?_) (append_eq_nil_iff.mp hnil).1
    rw [parseShape_default hlookup hin, append_eq_nil_iff] at hrest
    have hvalid := (parse_agrees inner d _ hjson hfree).mp hrest.1
    rw [hinvalid] at hvalid
    cases hvalid

/-- A runtime for texts without letters beyond ASCII. -/
def asciiRuntime : Runtime where
  toUpperCase s := s.toUpper
  toLowerCase s := s.toLower
  test _ _ := false
  regexText r := "/" ++ r.source ++ "/" ++ r.flags
  numberText q := toString q
  stringify _ := ""

/-- A user with a name and up to three tags, and nothing else. -/
def userSchema : Schema :=
  .object [("name", .string { min := some 1 }),
    ("tags", .optional (.array (.string {}) { max := some 3 })),
    ("role", .default (.enum ["admin", "member"]) (.str "member"))] .strict none

end Vertz.Proofs
