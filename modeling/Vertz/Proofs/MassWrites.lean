import Vertz.Db.Query.Crud
import Vertz.Proofs.FilterReading

/-!
# `Vertz.Proofs.MassWrites`: when `updateMany` and `deleteMany` are guarded

The guard in front of the mass writes counts the keys of the where
object; the clause builder drops what is undefined or empty. The two
notions of emptiness differ, and `massWrites_guarded` says exactly where:
the emitted statement is guarded if and only if the filter restricts.
-/

namespace Vertz.Proofs

open Vertz.Lib
open Vertz.Lib.Condition
open Vertz.Db
open Vertz.Db.Sql
open Vertz.Db.Query
open Vertz.Spec List

variable {H K : Type} {ov : Option CasingOverrides}

/-! ### Conditions in the text -/

/-- Whether an atom occurs among the tokens. -/
def hasAtom (ts : List (Tok (Atom H))) : Bool := ts.any fun t => t.atom?.isSome

theorem hasAtom_iff {ts : List (Tok (Atom H))} : hasAtom ts = true ↔ ∃ a, Tok.atom a ∈ ts := by
  unfold hasAtom
  rw [any_eq_true]
  constructor
  · rintro ⟨t, ht, ha⟩
    cases t with
    | atom a => exact ⟨a, ht⟩
    | _ => cases ha
  · rintro ⟨a, ha⟩
    exact ⟨_, ha, rfl⟩

theorem hasAtom_append (ts us : List (Tok (Atom H))) :
    hasAtom (ts ++ us) = (hasAtom ts || hasAtom us) :=
  any_append

theorem hasAtom_condNumber (i : ℕ) (ts : List (Tok (Atom H))) :
    hasAtom (condNumber i ts) = hasAtom ts := by
  induction ts generalizing i with
  | nil => rfl
  | cons t ts ih =>
    cases t with
    | atom a => rfl
    | _ => exact ih i

theorem hasAtom_join {sep : Tok (Atom H)} (hsep : sep.atom? = none)
    (cs : List (List (Tok (Atom H)))) : hasAtom (Tok.join sep cs) = cs.any hasAtom := by
  induction cs with
  | nil => rfl
  | cons c cs ih =>
    cases cs with
    | nil => exact (Bool.or_false _).symm
    | cons c' cs =>
      have hcons : hasAtom (sep :: Tok.join sep (c' :: cs))
          = hasAtom (Tok.join sep (c' :: cs)) := by
        show (sep.atom?.isSome || hasAtom _) = _
        rw [hsep]
        rfl
      rw [Tok.join_cons_cons, hasAtom_append, hcons, ih]
      rfl

theorem hasAtom_parens (ts : List (Tok (Atom H))) :
    hasAtom (.lparen :: ts ++ [.rparen]) = hasAtom ts := by
  show hasAtom (ts ++ [.rparen]) = hasAtom ts
  rw [hasAtom_append]
  exact Bool.or_false _

theorem hasAtom_operand (cs : List (List (Tok (Atom H)))) :
    hasAtom (operand cs) = cs.any hasAtom := by
  unfold operand
  split
  · rw [hasAtom_parens, hasAtom_join rfl]
  · rw [hasAtom_join rfl]

theorem hasAtom_entryConditions (es : List (String × Js)) :
    (entryConditions ov es).any hasAtom = es.any entryContributes := by
  induction es with
  | nil => rfl
  | cons e es ih =>
    have hhead : ((fieldConditions ov e.1 e.2).map fun a => [Tok.atom a]).any hasAtom
        = entryContributes e := by
      unfold entryContributes
      have hsame : (fieldConditions ov e.1 e.2).isEmpty = (fieldConditions none e.1 e.2).isEmpty :=
        fieldConditions_isEmpty e.1 e.2
      rw [← hsame]
      cases fieldConditions ov e.1 e.2 <;> rfl
    show (((fieldConditions ov e.1 e.2).map fun a => [Tok.atom a]) ++
      entryConditions ov es).any hasAtom = _
    rw [any_append, hhead, ih, any_cons]

mutual

/-- A condition occurs in the emitted clauses exactly when one occurs in
the filter. -/
theorem hasAtom_filterConditions : (f : WhereFilter) →
    (filterConditions ov f).any hasAtom = hasCondition f
  | .mk fields OR AND NOT => by
      rw [filterConditions, hasCondition, any_append, any_append, any_append,
        hasAtom_entryConditions, hasAtom_logicalConditions rfl OR,
        hasAtom_logicalConditions rfl AND, hasAtom_notConditions NOT]

theorem hasAtom_logicalConditions {sep : Tok (Atom Param)} (hsep : sep.atom? = none)
    {identity : Bool} : (s : Slot (List WhereFilter)) →
      (logicalConditions ov sep identity s).any hasAtom = hasConditionList s
  | .absent => by
      rw [logicalConditions, hasConditionList]
      rfl
  | .undefined => by
      rw [logicalConditions, hasConditionList]
      rfl
  | .value [] => by
      rw [logicalConditions, hasConditionList]
      rfl
  | .value (f :: fs) => by
      rw [logicalConditions, hasConditionList, any_cons, hasAtom_parens, hasAtom_join hsep,
        hasAtom_operandConditions (f :: fs)]
      exact Bool.or_false _

theorem hasAtom_notConditions : (s : Slot WhereFilter) →
    (notConditions ov s).any hasAtom = hasConditionNot s
  | .absent => by
      rw [notConditions, hasConditionNot]
      rfl
  | .undefined => by
      rw [notConditions, hasConditionNot]
      rfl
  | .value f => by
      rw [notConditions, hasConditionNot, ← hasAtom_filterConditions f]
      show (hasAtom (.lparen :: Tok.join .and (filterConditions ov f) ++ [.rparen]) || false) = _
      rw [hasAtom_parens, hasAtom_join rfl, Bool.or_false]

theorem hasAtom_operandConditions : (fs : List WhereFilter) →
    (operandConditions ov fs).any hasAtom = hasConditionAny fs
  | [] => by
      rw [operandConditions, hasConditionAny]
      rfl
  | f :: fs => by
      rw [operandConditions, hasConditionAny, any_cons, hasAtom_operand,
        hasAtom_filterConditions f, hasAtom_operandConditions fs]

end

/-! ### Unconditional text -/

theorem atomValue_unknown_map (g : H → K) (a : Atom H) :
    atomValue (fun _ => .unknown) (atomMap g a) = atomValue (fun _ => .unknown) a := by
  cases a <;> rfl

/-- Text is unconditional exactly when it evaluates to true with every
column comparison unknown. -/
theorem unconditional_iff_unknown (ts : Clause) :
    Unconditional ts ↔
      ∃ c, parse ts = some c ∧ Cond.eval (atomValue fun _ => .unknown) c = .yes := by
  constructor
  · rintro ⟨c, hc, h⟩
    exact ⟨c, hc, h _⟩
  · rintro ⟨c, hc, h⟩
    refine ⟨c, hc, fun ρ => ?_⟩
    have hbelow : ∀ a : Atom ℕ,
        Tri.Below (atomValue (fun _ => .unknown) a) (atomValue ρ a) := by
      intro a
      cases a with
      | const b => exact .refl _
      | _ => exact .inl rfl
    exact (Cond.eval_below hbelow c).eq_of_yes h

/-- Two conditions that agree after renaming their placeholders are
unconditional together. -/
theorem parse_unknown_congr {ts : List (Tok (Atom H))} {us : List (Tok (Atom K))} {L : Type}
    {g : H → L} {g' : K → L} (h : ts.map (Tok.map (atomMap g)) = us.map (Tok.map (atomMap g'))) :
    (∃ c, parse ts = some c ∧ Cond.eval (atomValue fun _ => .unknown) c = .yes) ↔
      ∃ c, parse us = some c ∧ Cond.eval (atomValue fun _ => .unknown) c = .yes := by
  have hvalue : ∀ {J : Type} (f : J → L) (ws : List (Tok (Atom J))),
      (∃ c, parse ws = some c ∧ Cond.eval (atomValue fun _ => .unknown) c = .yes) ↔
        ∃ c, parse (ws.map (Tok.map (atomMap f))) = some c ∧
          Cond.eval (atomValue fun _ => .unknown) c = .yes := by
    intro J f ws
    rw [parse_map]
    cases parse ws with
    | none => simp
    | some c =>
      have heval : Cond.eval (atomValue fun _ => .unknown) (Cond.map (atomMap f) c)
          = Cond.eval (atomValue fun _ => .unknown) c := by
        rw [Cond.eval_map]
        exact congrArg (fun ρ => Cond.eval ρ c) (funext (atomValue_unknown_map f))
      simp [heval]
  rw [hvalue g ts, hvalue g' us, h]

/-- The emitted condition is unconditional exactly when the filter is
well formed and vacuously true. -/
theorem unconditional_iff {f : WhereFilter} (hc : contributes f = true) (off : ℕ) :
    Unconditional (condNumber off (whereCondition none (some f))) ↔
      wellFormed f = true ∧ vacuouslyTrue f = true := by
  have hbind := bindParams_number off [] [] (whereCondition none (some f))
  rw [length_nil, Nat.add_zero] at hbind
  rw [unconditional_iff_unknown, parse_unknown_congr hbind]
  obtain ⟨hwf, hbroken⟩ := @whereCondition_parse none f hc
  cases h : wellFormed f with
  | false => simp [hbroken h]
  | true =>
    obtain ⟨c, hparse, hv⟩ := hwf h
    simp [hparse, hv, vacuouslyTrue]

/-! ### The statements -/

theorem contributes_of_hasCondition {f : WhereFilter} (h : hasCondition f = true) :
    contributes f = true := by
  have hatoms : (filterConditions none f).any hasAtom = hasCondition f := hasAtom_filterConditions f
  have hclauses : filterConditions none f ≠ [] ↔ contributes f = true := filterConditions_ne_nil f
  rw [← hclauses]
  intro hnil
  rw [← hatoms, hnil] at h
  cases h

theorem buildStatementWhere_guarded {f : WhereFilter} {off : ℕ} {d : Dialect}
    {clause : Option Clause} {params : List Param}
    (h : buildStatementWhere (some f) off d = .ok (clause, params)) :
    Guarded clause ↔ Restricts f := by
  obtain ⟨r, hr, h⟩ := bind_eq_ok h
  obtain ⟨hsql, -⟩ := buildWhere_numbers hr
  have hatom : hasAtom r.sql = hasCondition f := by
    rw [hsql, hasAtom_condNumber, whereCondition_some, hasAtom_join rfl,
      hasAtom_filterConditions]
  by_cases hempty : r.sql.isEmpty = true
  · rw [if_pos hempty] at h
    cases h
    rw [isEmpty_iff.mp hempty] at hatom
    constructor
    · rintro ⟨ts, hts, -⟩
      cases hts
    · rintro ⟨hcond, -⟩
      rw [← hatom] at hcond
      cases hcond
  · rw [if_neg hempty] at h
    cases h
    have hun : hasCondition f = true → (Unconditional r.sql ↔
        wellFormed f = true ∧ vacuouslyTrue f = true) := by
      intro hcond
      rw [hsql]
      exact unconditional_iff (contributes_of_hasCondition hcond) off
    constructor
    · rintro ⟨ts, hts, ha, hnot⟩
      cases hts
      have hcond : hasCondition f = true := by rw [← hatom, hasAtom_iff]; exact ha
      exact ⟨hcond, fun h => hnot ((hun hcond).mpr h)⟩
    · rintro ⟨hcond, hnot⟩
      refine ⟨r.sql, rfl, ?_, fun h => hnot ((hun hcond).mp h)⟩
      rw [← hasAtom_iff, hatom, hcond]

/-- Guarded mass writes. A statement emitted by `updateMany` or
`deleteMany` has a WHERE that restricts it if and only if the filter
restricts. -/
theorem massWrites_guarded (table : TableDef) (where_ : WhereFilter) (d : Dialect) :
    (∀ data r, updateMany table where_ data d = .ok r →
      (Guarded r.sql.where_ ↔ Restricts where_)) ∧
    ∀ r, deleteMany table where_ d = .ok r → (Guarded r.sql.where_ ↔ Restricts where_) := by
  constructor
  · intro data r h
    obtain ⟨-, -, h⟩ := bind_eq_ok h
    obtain ⟨validated, -, h⟩ := bind_eq_ok h
    unfold buildUpdate at h
    obtain ⟨⟨clause, params⟩, hwhere, h⟩ := bind_eq_ok h
    cases h
    exact buildStatementWhere_guarded hwhere
  · intro r h
    obtain ⟨-, -, h⟩ := bind_eq_ok h
    obtain ⟨⟨clause, params⟩, hwhere, h⟩ := bind_eq_ok h
    cases h
    exact buildStatementWhere_guarded hwhere

def usersTable : TableDef where
  name := "users"
  columns := .ofList [("id", .plain "text"), ("status", .plain "text")]

/-- `{ status: { in: ['a'] } }`. -/
def statusInFilter : WhereFilter :=
  .mk (.ofList [("status", .obj [("in", .arr [.str "a"])])]) .absent .absent .absent

theorem massWrites_guarded_statusIn :
    Guarded (some [.atom (.inList ⟨"status", []⟩ false [1])]) ↔ Restricts statusInFilter :=
  (massWrites_guarded usersTable statusInFilter postgresDialect).2
    ⟨⟨"users", some [.atom (.inList ⟨"status", []⟩ false [1])], none⟩, [.value (.str "a")]⟩ rfl

/-- `{ status: { eq: undefined } }` and `{ AND: [] }` both pass the guard
in front of the mass writes; the first emits no WHERE, the second emits
`WHERE TRUE`. -/
theorem massWrites_unguarded :
    (∃ r, deleteMany usersTable
        (.mk (.ofList [("status", .obj [("eq", .undefined)])]) .absent .absent .absent)
        postgresDialect = .ok r ∧ ¬ Guarded r.sql.where_) ∧
    ∃ r, updateMany usersTable (.mk .empty .absent (.value []) .absent)
        (.ofList [("status", .param (.value (.str "x")))]) postgresDialect = .ok r ∧
      ¬ Guarded r.sql.where_ := by
  constructor
  · refine ⟨⟨⟨"users", none, none⟩, []⟩, rfl, ?_⟩
    rintro ⟨ts, hts, -⟩
    cases hts
  · refine ⟨⟨⟨"users", [⟨"status", [.hole 1]⟩], some [.atom (.const true)], none⟩,
      [.value (.str "x")]⟩, rfl, ?_⟩
    rintro ⟨ts, hts, -, hnot⟩
    cases hts
    exact hnot ⟨.disj [.conj [.atom (.const true)]], rfl, fun ρ => rfl⟩

end Vertz.Proofs
