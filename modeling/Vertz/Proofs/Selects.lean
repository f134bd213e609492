import Vertz.Proofs.Pages
import Vertz.Spec.Access

/-!
# `Vertz.Proofs.Selects`: a where object selects entry by entry
-/

namespace Vertz.Proofs

open Vertz.Lib
open Vertz.Db
open Vertz.Db.Sql
open Vertz.Spec List

/-! ### What the builder takes -/

/-- Whether an operator is taken does not depend on the index. -/
theorem operatorClause_ok_iff (c : ColumnRef) (d : Dialect) (idx idx' : ℕ) (k : OperatorKey)
    (v : Js) :
    (∃ r, operatorClause c d idx k v = .ok r) ↔ ∃ r, operatorClause c d idx' k v = .ok r := by
  cases k
  case contains => cases v <;> simp [operatorClause]
  case startsWith => cases v <;> simp [operatorClause]
  case endsWith => cases v <;> simp [operatorClause]
  case in_ =>
    cases v with
    | arr vs => cases vs <;> simp [operatorClause]
    | _ => simp [operatorClause]
  case notIn =>
    cases v with
    | arr vs => cases vs <;> simp [operatorClause]
    | _ => simp [operatorClause]
  case hasAllKeys =>
    cases hd : d.supportsJsonbPath with
    | false => simp [operatorClause, hd]
    | true =>
      cases v with
      | arr vs => cases vs <;> simp [operatorClause, hd]
      | _ => simp [operatorClause, hd]
  case hasAnyKey =>
    cases hd : d.supportsJsonbPath with
    | false => simp [operatorClause, hd]
    | true =>
      cases v with
      | arr vs => cases vs <;> simp [operatorClause, hd]
      | _ => simp [operatorClause, hd]
  case arrayContains => cases hd : d.supportsArrayOps <;> simp [operatorClause, hd]
  case arrayContainedBy => cases hd : d.supportsArrayOps <;> simp [operatorClause, hd]
  case arrayOverlaps => cases hd : d.supportsArrayOps <;> simp [operatorClause, hd]
  case jsonContains => cases hd : d.supportsJsonbPath <;> simp [operatorClause, hd]
  case jsonContainedBy => cases hd : d.supportsJsonbPath <;> simp [operatorClause, hd]
  case hasKey => cases hd : d.supportsJsonbPath <;> simp [operatorClause, hd]
  all_goals simp [operatorClause]

theorem buildOperators_ok_iff (c : ColumnRef) (d : Dialect) (ops : List (OperatorKey × Js))
    (idx : ℕ) : (∃ b, buildOperators c d ops idx = .ok b) ↔
      ∀ o ∈ ops, ∃ r, operatorClause c d 0 o.1 o.2 = .ok r := by
  induction ops generalizing idx with
  | nil => exact ⟨fun _ o ho => absurd ho not_mem_nil, fun _ => ⟨_, rfl⟩⟩
  | cons o ops ih =>
    obtain ⟨k, v⟩ := o
    rw [forall_mem_cons, operatorClause_ok_iff c d 0 idx]
    refine bind_ok_iff_and fun r => ?_
    rw [← ih r.2.2, bind_ok_iff]
    exact ⟨fun ⟨a, ha, _⟩ => ⟨a, ha⟩, fun ⟨a, ha⟩ => ⟨a, ha, _, rfl⟩⟩

/-- Whether an entry is taken does not depend on the index. -/
theorem buildField_ok_iff (d : Dialect) (e : String × Js) (idx : ℕ) :
    (∃ b, buildField none d e.1 e.2 idx = .ok b) ↔ entryAccepted d e := by
  obtain ⟨key, value⟩ := e
  show (∃ b, buildField none d key value idx = .ok b) ↔ ∃ b, buildField none d key value 0 = .ok b
  have hoperators : ∀ (x : Except String ColumnRef) (ops : List (String × Js)),
      (∃ b, (x.bind fun c => buildOperatorCondition c ops idx d) = .ok b) ↔
        ∃ b, (x.bind fun c => buildOperatorCondition c ops 0 d) = .ok b := by
    intro x ops
    rw [bind_ok_iff, bind_ok_iff]
    refine exists_congr fun c => and_congr_right fun _ => ?_
    unfold buildOperatorCondition
    rw [buildOperators_ok_iff, buildOperators_ok_iff]
  unfold buildField
  by_cases hk : key = "OR" ∨ key = "AND" ∨ key = "NOT"
  · rw [if_pos hk, if_pos hk]
    exact ⟨fun _ => ⟨_, rfl⟩, fun _ => ⟨_, rfl⟩⟩
  · rw [if_neg hk, if_neg hk]
    cases fieldValue value with
    | path segments op => exact hoperators _ _
    | operators operators => exact hoperators _ _
    | null =>
      dsimp only
      rw [bind_ok_iff, bind_ok_iff]
      exact exists_congr fun c => and_congr_right fun _ =>
        ⟨fun _ => ⟨_, rfl⟩, fun _ => ⟨_, rfl⟩⟩
    | direct v =>
      dsimp only
      rw [bind_ok_iff, bind_ok_iff]
      exact exists_congr fun c => and_congr_right fun _ =>
        ⟨fun _ => ⟨_, rfl⟩, fun _ => ⟨_, rfl⟩⟩

theorem buildFields_ok_iff (d : Dialect) (es : List (String × Js)) (idx : ℕ) :
    (∃ b, buildFields none d es idx = .ok b) ↔ ∀ e ∈ es, entryAccepted d e := by
  induction es generalizing idx with
  | nil => exact ⟨fun _ e he => absurd he not_mem_nil, fun _ => ⟨_, rfl⟩⟩
  | cons e es ih =>
    rw [forall_mem_cons, ← buildField_ok_iff d e idx]
    refine bind_ok_iff_and fun b => ?_
    rw [← ih b.nextIndex, bind_ok_iff]
    exact ⟨fun ⟨a, ha, _⟩ => ⟨a, ha⟩, fun ⟨a, ha⟩ => ⟨a, ha, _, rfl⟩⟩

theorem bind_pack_ok_iff {ε α β : Type} {x : Except ε α} (f : α → β) :
    (∃ b, (x.bind fun a => .ok (f a)) = .ok b) ↔ ∃ a, x = .ok a := by
  rw [bind_ok_iff]
  exact ⟨fun ⟨a, ha, _⟩ => ⟨a, ha⟩, fun ⟨a, ha⟩ => ⟨a, ha, _, rfl⟩⟩

mutual

theorem buildFilterClauses_ok_iff (d : Dialect) : (f : WhereFilter) → (idx : ℕ) →
    ((∃ b, buildFilterClauses none d f idx = .ok b) ↔ ∀ e ∈ allEntries f, entryAccepted d e)
  | .mk fields OR AND NOT, idx => by
      rw [buildFilterClauses, allEntries]
      simp only [mem_append, or_imp, forall_and]
      rw [and_assoc, and_assoc, ← buildFields_ok_iff d fields.entries idx]
      refine bind_ok_iff_and fun b₀ => ?_
      rw [← buildLogical_ok_iff d .or false OR b₀.nextIndex]
      refine bind_ok_iff_and fun b₁ => ?_
      rw [← buildLogical_ok_iff d .and true AND b₁.nextIndex]
      refine bind_ok_iff_and fun b₂ => ?_
      rw [← buildNot_ok_iff d NOT b₂.nextIndex]
      exact bind_pack_ok_iff _

theorem buildLogical_ok_iff (d : Dialect) (sep : Tok (Atom ℕ)) (identity : Bool) :
    (s : Slot (List WhereFilter)) → (idx : ℕ) →
      ((∃ b, buildLogical none d sep identity s idx = .ok b) ↔
        ∀ e ∈ allEntriesList s, entryAccepted d e)
  | .absent, idx => by
      rw [buildLogical, allEntriesList]
      exact ⟨fun _ e he => absurd he not_mem_nil, fun _ => ⟨_, rfl⟩⟩
  | .undefined, idx => by
      rw [buildLogical, allEntriesList]
      exact ⟨fun _ e he => absurd he not_mem_nil, fun _ => ⟨_, rfl⟩⟩
  | .value [], idx => by
      rw [buildLogical, allEntriesList, allEntriesAll]
      exact ⟨fun _ e he => absurd he not_mem_nil, fun _ => ⟨_, rfl⟩⟩
  | .value (f :: fs), idx => by
      rw [buildLogical, allEntriesList, ← buildOperands_ok_iff d (f :: fs) idx]
      exact bind_pack_ok_iff _

theorem buildNot_ok_iff (d : Dialect) : (s : Slot WhereFilter) → (idx : ℕ) →
    ((∃ b, buildNot none d s idx = .ok b) ↔ ∀ e ∈ allEntriesNot s, entryAccepted d e)
  | .absent, idx => by
      rw [buildNot, allEntriesNot]
      exact ⟨fun _ e he => absurd he not_mem_nil, fun _ => ⟨_, rfl⟩⟩
  | .undefined, idx => by
      rw [buildNot, allEntriesNot]
      exact ⟨fun _ e he => absurd he not_mem_nil, fun _ => ⟨_, rfl⟩⟩
  | .value f, idx => by
      rw [buildNot, allEntriesNot, ← buildFilterClauses_ok_iff d f idx]
      exact bind_pack_ok_iff _

theorem buildOperands_ok_iff (d : Dialect) : (fs : List WhereFilter) → (idx : ℕ) →
    ((∃ b, buildOperands none d fs idx = .ok b) ↔ ∀ e ∈ allEntriesAll fs, entryAccepted d e)
  | [], idx => by
      rw [buildOperands, allEntriesAll]
      exact ⟨fun _ e he => absurd he not_mem_nil, fun _ => ⟨_, rfl⟩⟩
  | f :: fs, idx => by
      rw [buildOperands, allEntriesAll]
      simp only [mem_append, or_imp, forall_and]
      rw [← buildFilterClauses_ok_iff d f idx]
      refine bind_ok_iff_and fun sub => ?_
      rw [← buildOperands_ok_iff d fs sub.nextIndex]
      exact bind_pack_ok_iff _

end

theorem buildWhere_ok_iff (d : Dialect) (f : WhereFilter) (off : ℕ) :
    (∃ r, buildWhere (some f) off none d = .ok r) ↔ ∀ e ∈ allEntries f, entryAccepted d e := by
  rw [← buildFilterClauses_ok_iff d f off]
  unfold buildWhere
  dsimp only
  cases hempty : f.isEmpty with
  | false => exact bind_pack_ok_iff _
  | true =>
    rw [buildFilterClauses_ok_iff]
    obtain ⟨fields, OR, AND, NOT⟩ := f
    simp only [WhereFilter.isEmpty, Bool.and_eq_true, List.isEmpty_iff] at hempty
    obtain ⟨⟨⟨hfields, hor⟩, hand⟩, hnot⟩ := hempty
    cases OR <;> cases AND <;> cases NOT <;>
      simp only [Slot.isAbsent, reduceCtorEq] at hor hand hnot
    simp [allEntries, allEntriesList, allEntriesNot, hfields]

/-! ### The columns a condition names -/

theorem atoms_append {H : Type} (ts us : List (Tok (Atom H))) :
    atoms (ts ++ us) = atoms ts ++ atoms us :=
  filterMap_append

theorem atoms_join {H : Type} {sep : Tok (Atom H)} (hsep : sep.atom? = none)
    (cs : List (List (Tok (Atom H)))) : atoms (Tok.join sep cs) = cs.flatMap atoms := by
  induction cs with
  | nil => rfl
  | cons c cs ih =>
    cases cs with
    | nil => rw [Tok.join_singleton, flatMap_cons, flatMap_nil, append_nil]
    | cons c' cs =>
      have hone : atoms (sep :: Tok.join sep (c' :: cs)) = atoms (Tok.join sep (c' :: cs)) := by
        show List.filterMap Tok.atom? (sep :: _) = _
        rw [filterMap_cons_none hsep]
        rfl
      rw [Tok.join_cons_cons, atoms_append, hone, ih]
      rfl

theorem atoms_group {H : Type} (ts : List (Tok (Atom H))) :
    atoms (.lparen :: ts ++ [.rparen]) = atoms ts := by
  rw [cons_append]
  show atoms (ts ++ [.rparen]) = atoms ts
  rw [atoms_append]
  exact append_nil _

theorem atoms_operand {H : Type} (cs : List (List (Tok (Atom H)))) :
    atoms (operand cs) = cs.flatMap atoms := by
  unfold operand
  split
  · rw [atoms_group, atoms_join rfl]
  · exact atoms_join rfl cs

variable (columns : List String)

/-- A condition names known columns. -/
def allKnown {H : Type} (as : List (Atom H)) : Prop := as.all (knownAtom columns) = true

theorem allKnown_append {H : Type} (as bs : List (Atom H)) :
    allKnown columns (as ++ bs) ↔ allKnown columns as ∧ allKnown columns bs := by
  unfold allKnown
  rw [all_append, Bool.and_eq_true]

theorem allKnown_entries (es : List (String × Js)) :
    allKnown columns ((entryConditions none es).flatMap atoms) ↔ ∀ e ∈ es, entryKnown columns e := by
  induction es with
  | nil => exact ⟨fun _ e he => absurd he not_mem_nil, fun _ => rfl⟩
  | cons e es ih =>
    have hhead : ((fieldConditions none e.1 e.2).map fun a => [Tok.atom a]).flatMap atoms
        = fieldConditions none e.1 e.2 := by
      rw [flatMap_map]
      exact flatMap_singleton' _
    show allKnown columns ((((fieldConditions none e.1 e.2).map fun a => [Tok.atom a]) ++
      entryConditions none es).flatMap atoms) ↔ _
    rw [flatMap_append, allKnown_append, hhead, ih, forall_mem_cons]
    rfl

mutual

theorem allKnown_filter : (f : WhereFilter) →
    (allKnown columns ((filterConditions none f).flatMap atoms) ↔
      ∀ e ∈ allEntries f, entryKnown columns e)
  | .mk fields OR AND NOT => by
      rw [filterConditions, allEntries]
      simp only [flatMap_append, allKnown_append, mem_append, or_imp, forall_and]
      rw [allKnown_entries, allKnown_logical rfl OR, allKnown_logical rfl AND, allKnown_not NOT]

theorem allKnown_logical {sep : Tok (Atom Param)} (hsep : sep.atom? = none) {identity : Bool} :
    (s : Slot (List WhereFilter)) →
      (allKnown columns ((logicalConditions none sep identity s).flatMap atoms) ↔
        ∀ e ∈ allEntriesList s, entryKnown columns e)
  | .absent => by
      rw [logicalConditions, allEntriesList]
      exact ⟨fun _ e he => absurd he not_mem_nil, fun _ => rfl⟩
  | .undefined => by
      rw [logicalConditions, allEntriesList]
      exact ⟨fun _ e he => absurd he not_mem_nil, fun _ => rfl⟩
  | .value [] => by
      rw [logicalConditions, allEntriesList, allEntriesAll]
      exact ⟨fun _ e he => absurd he not_mem_nil, fun _ => rfl⟩
  | .value (f :: fs) => by
      rw [logicalConditions, allEntriesList, ← allKnown_operands (f :: fs), flatMap_cons,
        atoms_group, atoms_join hsep, flatMap_nil, append_nil]

theorem allKnown_not : (s : Slot WhereFilter) →
    (allKnown columns ((notConditions none s).flatMap atoms) ↔
      ∀ e ∈ allEntriesNot s, entryKnown columns e)
  | .absent => by
      rw [notConditions, allEntriesNot]
      exact ⟨fun _ e he => absurd he not_mem_nil, fun _ => rfl⟩
  | .undefined => by
      rw [notConditions, allEntriesNot]
      exact ⟨fun _ e he => absurd he not_mem_nil, fun _ => rfl⟩
  | .value f => by
      have hnot : atoms (.not :: .lparen :: Tok.join .and (filterConditions none f) ++ [.rparen])
          = atoms (.lparen :: Tok.join .and (filterConditions none f) ++ [.rparen]) := rfl
      rw [notConditions, allEntriesNot, ← allKnown_filter f, flatMap_cons, hnot, atoms_group,
        atoms_join rfl, flatMap_nil, append_nil]

theorem allKnown_operands : (fs : List WhereFilter) →
    (allKnown columns ((operandConditions none fs).flatMap atoms) ↔
      ∀ e ∈ allEntriesAll fs, entryKnown columns e)
  | [] => by
      rw [operandConditions, allEntriesAll]
      exact ⟨fun _ e he => absurd he not_mem_nil, fun _ => rfl⟩
  | f :: fs => by
      rw [operandConditions, allEntriesAll, flatMap_cons, allKnown_append, atoms_operand]
      simp only [mem_append, or_imp, forall_and]
      rw [allKnown_filter f, allKnown_operands fs]

end

theorem knownAtom_map {H K : Type} (g : H → K) (a : Atom H) :
    knownAtom columns (atomMap g a) = knownAtom columns a := by
  cases a <;> rfl

/-- The emitted condition only names columns of the table exactly when
the entries do. -/
theorem knownCondition_iff (f : WhereFilter) :
    knownCondition columns ((whereCondition none (some f)).map
        (Tok.map (atomMap (some : Param → Option Param)))) = true ↔
      ∀ e ∈ allEntries f, entryKnown columns e := by
  have hatoms : ∀ ts : List (Tok (Atom Param)),
      atoms (ts.map (Tok.map (atomMap (some : Param → Option Param))))
        = (atoms ts).map (atomMap some) := by
    intro ts
    induction ts with
    | nil => rfl
    | cons t ts ih =>
      cases t with
      | atom a => exact congrArg (atomMap some a :: ·) ih
      | _ => exact ih
  have hknown : ∀ as : List (Atom Param),
      (as.map (atomMap (some : Param → Option Param))).all (knownAtom columns)
        = as.all (knownAtom columns) := by
    intro as
    rw [all_map]
    exact congrArg as.all (funext fun a => knownAtom_map columns some a)
  have hjoin : atoms (Tok.join .and (filterConditions none f)) = _ := atoms_join rfl _
  rw [← allKnown_filter columns f, ← hjoin, ← whereCondition_some]
  unfold knownCondition allKnown
  rw [hatoms, hknown]

/-! ### Entry by entry -/

variable (engine : Engine) (d : Dialect) (row : SqlRow)

def entrySelects (e : String × Js) : Prop :=
  entryAccepted d e ∧ entryKnown columns e ∧ entryValue none (sqlAtom engine row) e = .yes

def operandsSelect (connective : List Tri → Tri) (s : Slot (List WhereFilter)) : Prop :=
  (∀ e ∈ allEntriesList s, entryAccepted d e ∧ entryKnown columns e) ∧ wellFormedList s = true ∧
    logicalValue (entryValue none (sqlAtom engine row)) connective s = .yes

def negatedSelects (s : Slot WhereFilter) : Prop :=
  (∀ e ∈ allEntriesNot s, entryAccepted d e ∧ entryKnown columns e) ∧ wellFormedNot s = true ∧
    notValue (entryValue none (sqlAtom engine row)) s = .yes

/-- One entry of a where object selects the row. -/
def keySelects (key : String) (value : Js) : Prop :=
  if key = "OR" then ∃ s, toOperands value = .ok s ∧ operandsSelect columns engine d row Tri.any s
  else if key = "AND" then
    ∃ s, toOperands value = .ok s ∧ operandsSelect columns engine d row Tri.all s
  else if key = "NOT" then ∃ s, toNegated value = .ok s ∧ negatedSelects columns engine d row s
  else entrySelects columns engine d row (key, value)

def partsSelect (p : FilterParts) : Prop :=
  (∀ e ∈ p.fields, entrySelects columns engine d row e) ∧
    operandsSelect columns engine d row Tri.any p.OR ∧
    operandsSelect columns engine d row Tri.all p.AND ∧ negatedSelects columns engine d row p.NOT

theorem selects_mk_iff (fields : Record Js) (OR AND : Slot (List WhereFilter))
    (NOT : Slot WhereFilter) : Selects engine d columns row (.mk fields OR AND NOT) ↔
      partsSelect columns engine d row ⟨fields.entries, OR, AND, NOT⟩ := by
  unfold partsSelect operandsSelect negatedSelects entrySelects
  constructor
  · rintro ⟨haccepted, hknown, hreadable, hvalue⟩
    rw [wellFormed, Bool.and_eq_true, Bool.and_eq_true] at hreadable
    rw [filterValue, Tri.and_eq_yes, Tri.and_eq_yes, Tri.and_eq_yes, Tri.all_eq_yes] at hvalue
    simp only [allEntries, mem_append, or_imp, forall_and] at haccepted hknown
    obtain ⟨⟨⟨haf, hao⟩, haa⟩, han⟩ := haccepted
    obtain ⟨⟨⟨hkf, hko⟩, hka⟩, hkn⟩ := hknown
    obtain ⟨⟨hro, hra⟩, hrn⟩ := hreadable
    obtain ⟨hvf, hvo, hva, hvn⟩ := hvalue
    exact ⟨fun e he => ⟨haf e he, hkf e he, hvf _ (mem_map.mpr ⟨e, he, rfl⟩)⟩,
      ⟨fun e he => ⟨hao e he, hko e he⟩, hro, hvo⟩, ⟨fun e he => ⟨haa e he, hka e he⟩, hra, hva⟩,
      ⟨fun e he => ⟨han e he, hkn e he⟩, hrn, hvn⟩⟩
  · rintro ⟨hf, ⟨ho, hro, hvo⟩, ⟨ha, hra, hva⟩, ⟨hn, hrn, hvn⟩⟩
    constructor
    · simp only [allEntries, mem_append, or_imp, forall_and]
      exact ⟨⟨⟨fun e he => (hf e he).1, fun e he => (ho e he).1⟩, fun e he => (ha e he).1⟩,
        fun e he => (hn e he).1⟩
    · simp only [allEntries, mem_append, or_imp, forall_and]
      exact ⟨⟨⟨fun e he => (hf e he).2.1, fun e he => (ho e he).2⟩, fun e he => (ha e he).2⟩,
        fun e he => (hn e he).2⟩
    · rw [wellFormed, hro, hra, hrn]
      rfl
    · rw [filterValue, Tri.and_eq_yes, Tri.and_eq_yes, Tri.and_eq_yes, Tri.all_eq_yes]
      refine ⟨fun t ht => ?_, hvo, hva, hvn⟩
      obtain ⟨e, he, rfl⟩ := mem_map.mp ht
      exact (hf e he).2.2

/-- What is not in an object is not in its filter. -/
theorem toParts_fields {es : List (String × Js)} {p : FilterParts} (h : toParts es = .ok p) :
    List.Sublist p.fields es ∧ ("OR" ∉ es.map Prod.fst → p.OR = .absent) ∧
      ("AND" ∉ es.map Prod.fst → p.AND = .absent) ∧
      ("NOT" ∉ es.map Prod.fst → p.NOT = .absent) := by
  induction es generalizing p with
  | nil =>
    rw [toParts] at h
    cases h
    exact ⟨.slnil, fun _ => rfl, fun _ => rfl, fun _ => rfl⟩
  | cons e es ih =>
    obtain ⟨key, value⟩ := e
    rw [toParts] at h
    obtain ⟨rest, hrest, h⟩ := bind_eq_ok h
    obtain ⟨hsub, hor, hand, hnot⟩ := ih hrest
    simp only [map_cons, mem_cons, not_or]
    split_ifs at h with h₁ h₂ h₃
    · cases hs : toOperands value with
      | error msg =>
        rw [hs] at h
        cases h
      | ok s =>
        rw [hs] at h
        cases h
        exact ⟨hsub.cons _, fun hne => absurd h₁.symm hne.1, fun hne => hand hne.2,
          fun hne => hnot hne.2⟩
    · cases hs : toOperands value with
      | error msg =>
        rw [hs] at h
        cases h
      | ok s =>
        rw [hs] at h
        cases h
        exact ⟨hsub.cons _, fun hne => hor hne.2, fun hne => absurd h₂.symm hne.1,
          fun hne => hnot hne.2⟩
    · cases hs : toNegated value with
      | error msg =>
        rw [hs] at h
        cases h
      | ok s =>
        rw [hs] at h
        cases h
        exact ⟨hsub.cons _, fun hne => hor hne.2, fun hne => hand hne.2,
          fun hne => absurd h₃.symm hne.1⟩
    · cases h
      exact ⟨hsub.cons_cons _, fun hne => hor hne.2, fun hne => hand hne.2, fun hne => hnot hne.2⟩

theorem operandsSelect_absent (connective : List Tri → Tri) :
    operandsSelect columns engine d row connective .absent := by
  refine ⟨fun e he => ?_, rfl, rfl⟩
  rw [allEntriesList] at he
  cases he

theorem negatedSelects_absent : negatedSelects columns engine d row .absent := by
  refine ⟨fun e he => ?_, rfl, rfl⟩
  rw [allEntriesNot] at he
  cases he

theorem toParts_select_iff {es : List (String × Js)} (hnodup : (es.map Prod.fst).Nodup) :
    (∃ p, toParts es = .ok p ∧ partsSelect columns engine d row p) ↔
      ∀ e ∈ es, keySelects columns engine d row e.1 e.2 := by
  induction es with
  | nil =>
    refine ⟨fun _ e he => absurd he not_mem_nil, fun _ => ⟨_, by rw [toParts], ?_⟩⟩
    exact ⟨fun e he => absurd he not_mem_nil, operandsSelect_absent _ _ _ _ _,
      operandsSelect_absent _ _ _ _ _, negatedSelects_absent _ _ _ _⟩
  | cons e es ih =>
    obtain ⟨key, value⟩ := e
    rw [map_cons, nodup_cons] at hnodup
    rw [forall_mem_cons, ← ih hnodup.2]
    -- the first entry's part is absent from the rest
    have hsplit : ∀ rest, toParts es = .ok rest →
        ((∃ p, (if key = "OR" then (toOperands value).map fun s => { rest with OR := s }
            else if key = "AND" then (toOperands value).map fun s => { rest with AND := s }
            else if key = "NOT" then (toNegated value).map fun s => { rest with NOT := s }
            else .ok { rest with fields := (key, value) :: rest.fields }) = .ok p ∧
          partsSelect columns engine d row p) ↔
        keySelects columns engine d row key value ∧ partsSelect columns engine d row rest) := by
      intro rest hrest
      obtain ⟨-, hor, hand, hnot⟩ := toParts_fields hrest
      unfold keySelects
      by_cases h₁ : key = "OR"
      · subst h₁
        rw [if_pos rfl, if_pos rfl, map_ok_iff]
        have habsent := hor hnodup.1
        constructor
        · rintro ⟨s, hs, hf, ho, ha, hn⟩
          refine ⟨⟨s, hs, ho⟩, hf, ?_, ha, hn⟩
          rw [habsent]
          exact operandsSelect_absent _ _ _ _ _
        · rintro ⟨⟨s, hs, ho⟩, hf, -, ha, hn⟩
          exact ⟨s, hs, hf, ho, ha, hn⟩
      · rw [if_neg h₁, if_neg h₁]
        by_cases h₂ : key = "AND"
        · subst h₂
          rw [if_pos rfl, if_pos rfl, map_ok_iff]
          have habsent := hand hnodup.1
          constructor
          · rintro ⟨s, hs, hf, ho, ha, hn⟩
            refine ⟨⟨s, hs, ha⟩, hf, ho, ?_, hn⟩
            rw [habsent]
            exact operandsSelect_absent _ _ _ _ _
          · rintro ⟨⟨s, hs, ha⟩, hf, ho, -, hn⟩
            exact ⟨s, hs, hf, ho, ha, hn⟩
        · rw [if_neg h₂, if_neg h₂]
          by_cases h₃ : key = "NOT"
          · subst h₃
            rw [if_pos rfl, if_pos rfl, map_ok_iff]
            have habsent := hnot hnodup.1
            constructor
            · rintro ⟨s, hs, hf, ho, ha, hn⟩
              refine ⟨⟨s, hs, hn⟩, hf, ho, ha, ?_⟩
              rw [habsent]
              exact negatedSelects_absent _ _ _ _
            · rintro ⟨⟨s, hs, hn⟩, hf, ho, ha, -⟩
              exact ⟨s, hs, hf, ho, ha, hn⟩
          · rw [if_neg h₃, if_neg h₃]
            constructor
            · rintro ⟨p, hp, hf, ho, ha, hn⟩
              cases hp
              rw [forall_mem_cons] at hf
              exact ⟨hf.1, hf.2, ho, ha, hn⟩
            · rintro ⟨he, hf, ho, ha, hn⟩
              exact ⟨_, rfl, forall_mem_cons.mpr ⟨he, hf⟩, ho, ha, hn⟩
    rw [toParts]
    cases hrest : toParts es with
    | error msg =>
      constructor
      · rintro ⟨p, hp, -⟩
        cases hp
      · rintro ⟨-, p, hp, -⟩
        cases hp
    | ok rest =>
      refine (hsplit rest hrest).trans (and_congr_right fun _ => ?_)
      refine ⟨fun h => ⟨rest, rfl, h⟩, ?_⟩
      rintro ⟨p, hp, h⟩
      cases hp
      exact h

/-- A where object selects a row exactly when each of its entries does. -/
theorem selects_iff (w : Record Js) : selects engine d columns w row ↔
    ∀ e ∈ w.entries, keySelects columns engine d row e.1 e.2 := by
  rw [← toParts_select_iff columns engine d row w.nodup]
  unfold selects whereFilter
  rw [toFilter, map_ok_iff]
  refine exists_congr fun p => and_congr_right fun hp => ?_
  have hfields : (Record.ofList p.fields).entries = p.fields :=
    Record.entries_ofList ((((toParts_fields hp).1).map Prod.fst).nodup w.nodup)
  unfold FilterParts.toFilter
  rw [selects_mk_iff, hfields]

theorem selects_only_iff (key : String) (value : Js) :
    selects engine d columns (only key value) row ↔ keySelects columns engine d row key value := by
  rw [selects_iff]
  exact ⟨fun h => h (key, value) (mem_singleton_self _),
    fun h e he => by rw [mem_singleton.mp he]; exact h⟩

/-- A where object selects a row exactly when each of its entries alone
does. -/
theorem selects_iff_only (w : Record Js) : selects engine d columns w row ↔
    ∀ key value, w.get? key = some value → selects engine d columns (only key value) row := by
  rw [selects_iff]
  constructor
  · intro h key value hget
    rw [selects_only_iff]
    exact h (key, value) (w.mem_entries_iff.mpr hget)
  · intro h e he
    rw [← selects_only_iff]
    exact h e.1 e.2 (w.mem_entries_iff.mp he)

/-! ### One column -/

variable {key : String}

theorem plainKey_not_logical (h : plainKey key = true) :
    key ≠ "OR" ∧ key ≠ "AND" ∧ key ≠ "NOT" := by
  simp only [plainKey, Bool.and_eq_true, bne_iff_ne] at h
  exact ⟨h.1.1.1, h.1.1.2, h.1.2⟩

theorem plainKey_column (h : plainKey key = true) :
    columnRefOf key none = ⟨camelToSnake key none, []⟩ ∧
      ∀ d, resolveColumnRef key none d = .ok ⟨camelToSnake key none, []⟩ := by
  simp only [plainKey, Bool.and_eq_true, beq_iff_eq] at h
  obtain ⟨part, hpart⟩ := length_eq_one_iff.mp h.2
  refine ⟨?_, fun d => ?_⟩
  · unfold columnRefOf
    rw [hpart]
  · unfold resolveColumnRef
    rw [hpart]

theorem keySelects_plain (hkey : plainKey key = true) (value : Js) :
    keySelects columns engine d row key value ↔ entrySelects columns engine d row (key, value) := by
  obtain ⟨hor, hand, hnot⟩ := plainKey_not_logical hkey
  unfold keySelects
  rw [if_neg hor, if_neg hand, if_neg hnot]

theorem entrySelects_single {e : String × Js} {a : Atom Param} (haccepted : entryAccepted d e)
    (hcond : fieldConditions none e.1 e.2 = [a]) :
    entrySelects columns engine d row e ↔ knownAtom columns a = true ∧
      atomValue (sqlAtom engine row) a = .yes := by
  unfold entrySelects entryKnown entryValue
  rw [hcond, List.all_cons, List.all_nil, Bool.and_true, List.map_cons, List.map_nil, Tri.all_cons,
    Tri.all_nil, Tri.and_yes]
  exact ⟨fun h => h.2, fun h => ⟨haccepted, h⟩⟩

theorem fieldConditions_plain (hkey : plainKey key = true) (value : Js) :
    fieldConditions none key value = match fieldValue value with
      | .path segments op =>
        (definedOperators op).map fun (k, v) =>
          operatorCondition ⟨camelToSnake key none, segments⟩ k v
      | .null => [.isNull ⟨camelToSnake key none, []⟩ false]
      | .operators operators =>
        (definedOperators operators).map fun (k, v) =>
          operatorCondition ⟨camelToSnake key none, []⟩ k v
      | .direct v => [.binary ⟨camelToSnake key none, []⟩ .eq (.value v)] := by
  obtain ⟨hor, hand, hnot⟩ := plainKey_not_logical hkey
  unfold fieldConditions
  rw [if_neg (not_or.mpr ⟨hor, not_or.mpr ⟨hand, hnot⟩⟩)]
  cases fieldValue value <;> simp only [(plainKey_column hkey).1]

theorem buildField_plain (hkey : plainKey key = true) {value : Js}
    (hvalue : fieldValue value = .null ∨ ∃ v, fieldValue value = .direct v) :
    entryAccepted d (key, value) := by
  obtain ⟨hor, hand, hnot⟩ := plainKey_not_logical hkey
  show ∃ b, buildField none d key value 0 = .ok b
  unfold buildField
  rw [if_neg (not_or.mpr ⟨hor, not_or.mpr ⟨hand, hnot⟩⟩)]
  rcases hvalue with hv | ⟨v, hv⟩
  · rw [hv]
    dsimp only
    rw [(plainKey_column hkey).2]
    exact ⟨_, rfl⟩
  · rw [hv]
    dsimp only
    rw [(plainKey_column hkey).2]
    exact ⟨_, rfl⟩

theorem strict_eq_yes {a b : Js} (hb : b.isNullish = false) :
    strict (· == ·) a b = .yes ↔ a = b := by
  unfold strict
  rw [hb, Bool.or_false]
  cases ha : a.isNullish with
  | true =>
    constructor
    · intro h
      cases h
    · intro h
      rw [h, hb] at ha
      cases ha
  | false => rw [Tri.unknownIf_false, Tri.ofBool_eq_yes, beq_iff_eq]

theorem selects_only_direct (hkey : plainKey key = true) {v : Js} (hv : fieldValue v = .direct v)
    (hnull : v.isNullish = false) :
    selects engine d columns (only key v) row ↔
      columns.contains (camelToSnake key none) = true ∧ row (camelToSnake key none) = v := by
  have hcond : fieldConditions none key v
      = [.binary ⟨camelToSnake key none, []⟩ .eq (.value v)] := by
    rw [fieldConditions_plain hkey, hv]
  rw [selects_only_iff, keySelects_plain columns engine d row hkey,
    entrySelects_single columns engine d row (buildField_plain d hkey (.inr ⟨v, hv⟩)) hcond]
  refine and_congr_right fun _ => ?_
  show strict (· == ·) (row (camelToSnake key none)) v = .yes ↔ _
  exact strict_eq_yes hnull

theorem selects_only_null (hkey : plainKey key = true) :
    selects engine d columns (only key .null) row ↔
      columns.contains (camelToSnake key none) = true ∧
        (row (camelToSnake key none)).isNullish = true := by
  have hcond : fieldConditions none key .null = [.isNull ⟨camelToSnake key none, []⟩ false] :=
    fieldConditions_plain hkey .null
  rw [selects_only_iff, keySelects_plain columns engine d row hkey,
    entrySelects_single columns engine d row (buildField_plain d hkey (.inl rfl)) hcond]
  refine and_congr_right fun _ => ?_
  show Tri.ofBool ((row (camelToSnake key none)).isNullish != false) = .yes ↔ _
  rw [Tri.ofBool_eq_yes, Bool.bne_false]

theorem not_selects_undefined (hor : key ≠ "OR") (hand : key ≠ "AND") (hnot : key ≠ "NOT") :
    ¬ selects engine d columns (only key .undefined) row := by
  rw [selects_only_iff]
  unfold keySelects
  rw [if_neg hor, if_neg hand, if_neg hnot]
  rintro ⟨-, -, hvalue⟩
  have hcond : fieldConditions none key .undefined
      = [.binary (columnRefOf key none) .eq (.value .undefined)] := by
    unfold fieldConditions
    rw [if_neg (not_or.mpr ⟨hor, not_or.mpr ⟨hand, hnot⟩⟩)]
    rfl
  unfold entryValue at hvalue
  rw [hcond, List.map_cons, List.map_nil, Tri.all_cons, Tri.all_nil, Tri.and_yes] at hvalue
  have hoperand : sqlOperand engine (columnRefOf key none) .undefined = .undefined := by
    unfold sqlOperand
    rw [if_pos (by show (_ || true) = true; exact Bool.or_true _)]
  have hvalue : strict (· == ·) (sqlCell engine row (columnRefOf key none))
      (sqlOperand engine (columnRefOf key none) .undefined) = .yes := hvalue
  rw [hoperand] at hvalue
  unfold strict at hvalue
  have htrue : ((sqlCell engine row (columnRefOf key none)).isNullish ||
      Js.undefined.isNullish) = true := Bool.or_true _
  rw [htrue] at hvalue
  cases hvalue

theorem selects_logical_undefined (h : key = "OR" ∨ key = "AND" ∨ key = "NOT") :
    selects engine d columns (only key .undefined) row := by
  have hoperands : ∀ connective : List Tri → Tri,
      operandsSelect columns engine d row connective .undefined := by
    refine fun connective => ⟨fun e he => ?_, rfl, rfl⟩
    rw [allEntriesList] at he
    cases he
  rw [selects_only_iff]
  unfold keySelects
  rcases h with rfl | rfl | rfl
  · rw [if_pos rfl]
    exact ⟨.undefined, by rw [toOperands], hoperands _⟩
  · rw [if_neg (by decide), if_pos rfl]
    exact ⟨.undefined, by rw [toOperands], hoperands _⟩
  · rw [if_neg (by decide), if_neg (by decide), if_pos rfl]
    refine ⟨.undefined, by rw [toNegated], fun e he => ?_, rfl, rfl⟩
    rw [allEntriesNot] at he
    cases he

end Vertz.Proofs
