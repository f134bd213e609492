import Vertz.Lib.Except
import Vertz.Spec.Conditions

/-!
# `Vertz.Proofs.Numbering`: the WHERE builder numbers its conditions

`buildFilterClauses` threads the parameter index by hand. Here that
threading is shown to come to one thing: the clauses it returns are the
filter's conditions with the placeholders numbered left to right from
the index it was given, its parameters are the conditions' values in the
same order, and the index it leaves is the index after the last of them
(`Numbers`).
-/

namespace Vertz.Proofs

open Vertz.Lib
open Vertz.Db
open Vertz.Db.Sql
open Vertz.Spec List

variable {H K : Type}

/-! ### Placeholders of conditions -/

/-- The placeholders of an atom, left to right. -/
def atomHoles : Atom H → List H
  | .const _ => []
  | .isNull _ _ => []
  | .binary _ _ h => [h]
  | .inList _ _ hs => hs

def tokHoles : Tok (Atom H) → List H
  | .atom a => atomHoles a
  | _ => []

/-- The placeholders of a condition, left to right. -/
def condHoles (ts : List (Tok (Atom H))) : List H := ts.flatMap tokHoles

/-- The placeholders of several conditions, left to right. -/
def condsHoles (cs : List (List (Tok (Atom H)))) : List H := cs.flatMap condHoles

/-- An atom with its placeholders numbered from `i + 1`. -/
def atomNumber (i : ℕ) : Atom H → Atom ℕ
  | .const b => .const b
  | .isNull c n => .isNull c n
  | .binary c op _ => .binary c op (i + 1)
  | .inList c n hs => .inList c n (List.range' (i + 1) hs.length)

/-- A condition with its placeholders numbered from `i + 1`. -/
def condNumber (i : ℕ) : List (Tok (Atom H)) → Clause
  | [] => []
  | .atom a :: ts => .atom (atomNumber i a) :: condNumber (i + (atomHoles a).length) ts
  | .and :: ts => .and :: condNumber i ts
  | .or :: ts => .or :: condNumber i ts
  | .not :: ts => .not :: condNumber i ts
  | .lparen :: ts => .lparen :: condNumber i ts
  | .rparen :: ts => .rparen :: condNumber i ts

/-- Several conditions numbered one after the other. -/
def condsNumber (i : ℕ) : List (List (Tok (Atom H))) → List Clause
  | [] => []
  | c :: cs => condNumber i c :: condsNumber (i + (condHoles c).length) cs

theorem condHoles_append (ts us : List (Tok (Atom H))) :
    condHoles (ts ++ us) = condHoles ts ++ condHoles us :=
  flatMap_append

theorem condsHoles_append (cs ds : List (List (Tok (Atom H)))) :
    condsHoles (cs ++ ds) = condsHoles cs ++ condsHoles ds :=
  flatMap_append

theorem condNumber_append (i : ℕ) (ts us : List (Tok (Atom H))) :
    condNumber i (ts ++ us) = condNumber i ts ++ condNumber (i + (condHoles ts).length) us := by
  induction ts generalizing i with
  | nil => rfl
  | cons t ts ih =>
    cases t with
    | atom a =>
      have hlen : (condHoles (Tok.atom a :: ts)).length
          = (atomHoles a).length + (condHoles ts).length := length_append
      rw [cons_append, condNumber, condNumber, ih, hlen, cons_append, Nat.add_assoc]
    | _ => exact congrArg _ (ih i)

theorem condsNumber_append (i : ℕ) (cs ds : List (List (Tok (Atom H)))) :
    condsNumber i (cs ++ ds)
      = condsNumber i cs ++ condsNumber (i + (condsHoles cs).length) ds := by
  induction cs generalizing i with
  | nil => rfl
  | cons c cs ih =>
    have hlen : (condsHoles (c :: cs)).length
        = (condHoles c).length + (condsHoles cs).length := length_append
    rw [cons_append, condsNumber, condsNumber, ih, hlen, cons_append, Nat.add_assoc]

@[simp] theorem condsNumber_length (i : ℕ) (cs : List (List (Tok (Atom H)))) :
    (condsNumber i cs).length = cs.length := by
  induction cs generalizing i with
  | nil => rfl
  | cons c cs ih => rw [condsNumber, length_cons, ih, length_cons]

/-- A separator that carries no placeholder. -/
theorem condHoles_join {sep : Tok (Atom H)} (hsep : tokHoles sep = [])
    (cs : List (List (Tok (Atom H)))) : condHoles (Tok.join sep cs) = condsHoles cs := by
  induction cs with
  | nil => rfl
  | cons c cs ih =>
    cases cs with
    | nil =>
      show condHoles c = condHoles c ++ []
      rw [append_nil]
    | cons c' cs =>
      have hcons : condHoles (sep :: Tok.join sep (c' :: cs))
          = tokHoles sep ++ condHoles (Tok.join sep (c' :: cs)) := rfl
      rw [Tok.join_cons_cons, condHoles_append, hcons, hsep, ih]
      rfl

theorem condNumber_join_and (i : ℕ) (cs : List (List (Tok (Atom H)))) :
    condNumber i (Tok.join .and cs) = Tok.join .and (condsNumber i cs) := by
  induction cs generalizing i with
  | nil => rfl
  | cons c cs ih =>
    cases cs with
    | nil => rfl
    | cons c' cs =>
      rw [Tok.join_cons_cons, condNumber_append, condNumber, ih]
      rfl

theorem condNumber_join_or (i : ℕ) (cs : List (List (Tok (Atom H)))) :
    condNumber i (Tok.join .or cs) = Tok.join .or (condsNumber i cs) := by
  induction cs generalizing i with
  | nil => rfl
  | cons c cs ih =>
    cases cs with
    | nil => rfl
    | cons c' cs =>
      rw [Tok.join_cons_cons, condNumber_append, condNumber, ih]
      rfl

theorem condNumber_parens (i : ℕ) (ts : List (Tok (Atom H))) :
    condNumber i (.lparen :: ts ++ [.rparen]) = .lparen :: condNumber i ts ++ [.rparen] := by
  rw [cons_append, condNumber, condNumber_append]
  rfl

theorem condHoles_parens (ts : List (Tok (Atom H))) :
    condHoles (.lparen :: ts ++ [.rparen]) = condHoles ts := by
  show condHoles (ts ++ [.rparen]) = condHoles ts
  rw [condHoles_append]
  exact append_nil _

theorem condNumber_operand (i : ℕ) (cs : List (List (Tok (Atom H)))) :
    condNumber i (operand cs) = operand (condsNumber i cs) := by
  unfold operand
  rw [condsNumber_length]
  by_cases h : cs.length > 1
  · rw [if_pos h, if_pos h, condNumber_parens, condNumber_join_and]
  · rw [if_neg h, if_neg h, condNumber_join_and]

theorem condHoles_operand (cs : List (List (Tok (Atom H)))) :
    condHoles (operand cs) = condsHoles cs := by
  unfold operand
  by_cases h : cs.length > 1
  · rw [if_pos h, condHoles_parens, condHoles_join rfl]
  · rw [if_neg h, condHoles_join rfl]

/-! ### The builder -/

/-- `b` is `cs` numbered from `idx`. -/
structure Numbers (b : Built) (idx : ℕ) (cs : List Condition) : Prop where
  clauses : b.clauses = condsNumber idx cs
  params : b.params = condsHoles cs
  nextIndex : b.nextIndex = idx + b.params.length

theorem Numbers.empty (idx : ℕ) : Numbers ⟨[], [], idx⟩ idx [] := ⟨rfl, rfl, rfl⟩

theorem Numbers.append {b b' : Built} {idx : ℕ} {cs cs' : List Condition}
    (h : Numbers b idx cs) (h' : Numbers b' b.nextIndex cs') :
    Numbers ⟨b.clauses ++ b'.clauses, b.params ++ b'.params, b'.nextIndex⟩ idx (cs ++ cs') := by
  refine ⟨?_, ?_, ?_⟩
  · have hidx : b.nextIndex = idx + (condsHoles cs).length := by rw [h.nextIndex, h.params]
    rw [condsNumber_append, h.clauses, h'.clauses, hidx]
  · rw [condsHoles_append, h.params, h'.params]
  · show b'.nextIndex = idx + (b.params ++ b'.params).length
    rw [h'.nextIndex, h.nextIndex, length_append, Nat.add_assoc]

/-- Wrapping the clauses of a piece into one clause. -/
theorem Numbers.single {b : Built} {idx : ℕ} {cs : List Condition} (h : Numbers b idx cs)
    {clause : Clause} {c : Condition} (hc : clause = condNumber idx c)
    (hh : condHoles c = condsHoles cs) : Numbers ⟨[clause], b.params, b.nextIndex⟩ idx [c] := by
  refine ⟨?_, ?_, h.nextIndex⟩
  · rw [hc]
    rfl
  · show b.params = condHoles c ++ []
    rw [append_nil, hh, h.params]

variable {d : Dialect}

/-- One operator branch pushes its condition's placeholders and values,
and advances the index by their number. -/
theorem operatorClause_numbers {c : ColumnRef} {idx : ℕ} {k : OperatorKey} {v : Js} {atom : Atom ℕ}
    {params : List Param} {idx' : ℕ} (h : operatorClause c d idx k v = .ok (atom, params, idx')) :
    atom = atomNumber idx (operatorCondition c k v) ∧
      params = atomHoles (operatorCondition c k v) ∧ idx' = idx + params.length := by
  have hrange : ∀ n : ℕ, ((List.range n).map fun i => idx + 1 + i) = List.range' (idx + 1) n :=
    fun n => (range'_eq_map_range).symm
  cases k <;> simp only [operatorClause] at h
  case contains | startsWith | endsWith =>
    cases v <;> simp only [Except.ok.injEq, Prod.mk.injEq, reduceCtorEq] at h
    obtain ⟨rfl, rfl, rfl⟩ := h
    exact ⟨rfl, rfl, rfl⟩
  case in_ | notIn =>
    cases v with
    | arr xs =>
      cases xs with
      | nil =>
        simp only [Except.ok.injEq, Prod.mk.injEq] at h
        obtain ⟨rfl, rfl, rfl⟩ := h
        exact ⟨rfl, rfl, rfl⟩
      | cons x xs =>
        simp only [Except.ok.injEq, Prod.mk.injEq] at h
        obtain ⟨rfl, rfl, rfl⟩ := h
        refine ⟨?_, rfl, ?_⟩
        · simp only [operatorCondition, inCondition, atomNumber, length_map, hrange]
        · rw [length_map]
    | _ => simp at h
  case hasAllKeys | hasAnyKey =>
    split at h
    · cases h
    · cases v with
      | arr xs =>
        cases xs <;>
          (simp only [Except.ok.injEq, Prod.mk.injEq] at h
           obtain ⟨rfl, rfl, rfl⟩ := h
           exact ⟨rfl, rfl, rfl⟩)
      | _ =>
        simp only [Except.ok.injEq, Prod.mk.injEq] at h
        obtain ⟨rfl, rfl, rfl⟩ := h
        exact ⟨rfl, rfl, rfl⟩
  case arrayContains | arrayContainedBy | arrayOverlaps | jsonContains | jsonContainedBy | hasKey =>
    split at h
    · cases h
    · simp only [Except.ok.injEq, Prod.mk.injEq] at h
      obtain ⟨rfl, rfl, rfl⟩ := h
      exact ⟨rfl, rfl, rfl⟩
  all_goals
    simp only [Except.ok.injEq, Prod.mk.injEq] at h
    obtain ⟨rfl, rfl, rfl⟩ := h
    exact ⟨rfl, rfl, rfl⟩

/-- One column's operators, in the order they are tried. -/
theorem buildOperators_numbers {c : ColumnRef} {ops : List (OperatorKey × Js)} {idx : ℕ} {b : Built}
    (h : buildOperators c d ops idx = .ok b) :
    Numbers b idx ((ops.map fun (k, v) => operatorCondition c k v).map fun a => [.atom a]) := by
  induction ops generalizing idx b with
  | nil =>
    cases h
    exact .empty idx
  | cons op ops ih =>
    obtain ⟨k, v⟩ := op
    obtain ⟨⟨atom, params, idx'⟩, hop, h⟩ := bind_eq_ok h
    obtain ⟨rest, hrest, h⟩ := bind_eq_ok h
    cases h
    obtain ⟨hatom, hparams, hidx⟩ := operatorClause_numbers hop
    have hone : Numbers ⟨[[.atom atom]], params, idx'⟩ idx
        [[.atom (operatorCondition c k v)]] := by
      refine ⟨?_, ?_, hidx⟩
      · rw [hatom]
        rfl
      · rw [hparams]
        show _ = (atomHoles _ ++ []) ++ []
        rw [append_nil, append_nil]
    exact hone.append (ih hrest)

variable {ov : Option CasingOverrides}

/-- Resolving a key against a dialect that supports its path gives the
column the key names. -/
theorem resolveColumnRef_eq {key : String} {c : ColumnRef} (h : resolveColumnRef key ov d = .ok c) :
    c = columnRefOf key ov := by
  unfold resolveColumnRef at h
  unfold columnRefOf
  generalize splitArrow [] key.toList = parts at h ⊢
  match parts, h with
  | baseCol :: part :: parts, h =>
    dsimp only at h
    split at h
    · cases h
    · cases h
      rfl
  | [_], h =>
    cases h
    rfl
  | [], h =>
    cases h
    rfl

theorem resolveColumnRefFromSegments_eq {key : String} {segs : List PathSegment} {c : ColumnRef}
    (h : resolveColumnRefFromSegments key segs ov d = .ok c) : c = ⟨camelToSnake key ov, segs⟩ := by
  unfold resolveColumnRefFromSegments at h
  split at h
  · cases h
  · cases h
    rfl

theorem buildField_numbers {key : String} {value : Js} {idx : ℕ} {b : Built}
    (h : buildField ov d key value idx = .ok b) :
    Numbers b idx ((fieldConditions ov key value).map fun a => [.atom a]) := by
  unfold buildField at h
  unfold fieldConditions
  by_cases hkey : key = "OR" ∨ key = "AND" ∨ key = "NOT"
  · rw [if_pos hkey] at h ⊢
    cases h
    exact .empty idx
  · rw [if_neg hkey] at h ⊢
    cases hv : fieldValue value with
    | path segments op =>
      rw [hv] at h
      obtain ⟨c, hc, h⟩ := bind_eq_ok h
      rw [resolveColumnRefFromSegments_eq hc] at h
      exact buildOperators_numbers h
    | null =>
      rw [hv] at h
      obtain ⟨c, hc, h⟩ := bind_eq_ok h
      rw [resolveColumnRef_eq hc] at h
      cases h
      exact ⟨rfl, rfl, rfl⟩
    | operators operators =>
      rw [hv] at h
      obtain ⟨c, hc, h⟩ := bind_eq_ok h
      rw [resolveColumnRef_eq hc] at h
      exact buildOperators_numbers h
    | direct v =>
      rw [hv] at h
      obtain ⟨c, hc, h⟩ := bind_eq_ok h
      rw [resolveColumnRef_eq hc] at h
      cases h
      exact ⟨rfl, rfl, rfl⟩

theorem buildFields_numbers {es : List (String × Js)} {idx : ℕ} {b : Built}
    (h : buildFields ov d es idx = .ok b) : Numbers b idx (entryConditions ov es) := by
  induction es generalizing idx b with
  | nil =>
    cases h
    exact .empty idx
  | cons e es ih =>
    obtain ⟨key, value⟩ := e
    obtain ⟨first, hfirst, h⟩ := bind_eq_ok h
    obtain ⟨rest, hrest, h⟩ := bind_eq_ok h
    cases h
    exact (buildField_numbers hfirst).append (ih hrest)

mutual

variable {ov : Option CasingOverrides}

/-- The builder numbers the filter's conditions. By induction on the
filter tree; the invariant at every node is `Numbers`. -/
theorem buildFilterClauses_numbers {d : Dialect} :
    (f : WhereFilter) → {idx : ℕ} → {b : Built} →
      buildFilterClauses ov d f idx = .ok b → Numbers b idx (filterConditions ov f)
  | .mk fields OR AND NOT, idx, b, h => by
      rw [buildFilterClauses] at h
      obtain ⟨b₀, h₀, h⟩ := bind_eq_ok h
      obtain ⟨b₁, h₁, h⟩ := bind_eq_ok h
      obtain ⟨b₂, h₂, h⟩ := bind_eq_ok h
      obtain ⟨b₃, h₃, h⟩ := bind_eq_ok h
      cases h
      rw [filterConditions]
      have hor := buildLogical_numbers (.inr ⟨rfl, rfl⟩) OR h₁
      have hand := buildLogical_numbers (.inl ⟨rfl, rfl⟩) AND h₂
      exact (((buildFields_numbers h₀).append hor).append hand).append (buildNot_numbers NOT h₃)

theorem buildLogical_numbers {d : Dialect} {identity : Bool} {sep : Tok (Atom ℕ)}
    {sep' : Tok (Atom Param)} (hsep : sep = .and ∧ sep' = .and ∨ sep = .or ∧ sep' = .or) :
    (s : Slot (List WhereFilter)) → {idx : ℕ} → {b : Built} →
      buildLogical ov d sep identity s idx = .ok b →
      Numbers b idx (logicalConditions ov sep' identity s)
  | .absent, idx, b, h => by
      rw [buildLogical] at h
      cases h
      rw [logicalConditions]
      exact .empty idx
  | .undefined, idx, b, h => by
      rw [buildLogical] at h
      cases h
      rw [logicalConditions]
      exact .empty idx
  | .value [], idx, b, h => by
      rw [buildLogical] at h
      cases h
      rw [logicalConditions]
      exact ⟨rfl, rfl, rfl⟩
  | .value (f :: fs), idx, b, h => by
      rw [buildLogical] at h
      obtain ⟨subs, hsubs, h⟩ := bind_eq_ok h
      cases h
      rw [logicalConditions]
      have hnum := buildOperands_numbers (f :: fs) hsubs
      rcases hsep with ⟨rfl, rfl⟩ | ⟨rfl, rfl⟩
      · refine hnum.single ?_ ?_
        · rw [condNumber_parens, condNumber_join_and, hnum.clauses]
        · rw [condHoles_parens, condHoles_join rfl]
      · refine hnum.single ?_ ?_
        · rw [condNumber_parens, condNumber_join_or, hnum.clauses]
        · rw [condHoles_parens, condHoles_join rfl]

theorem buildNot_numbers {d : Dialect} :
    (s : Slot WhereFilter) → {idx : ℕ} → {b : Built} →
      buildNot ov d s idx = .ok b → Numbers b idx (notConditions ov s)
  | .absent, idx, b, h => by
      rw [buildNot] at h
      cases h
      rw [notConditions]
      exact .empty idx
  | .undefined, idx, b, h => by
      rw [buildNot] at h
      cases h
      rw [notConditions]
      exact .empty idx
  | .value f, idx, b, h => by
      rw [buildNot] at h
      obtain ⟨sub, hsub, h⟩ := bind_eq_ok h
      cases h
      rw [notConditions]
      have hnum := buildFilterClauses_numbers f hsub
      refine hnum.single ?_ ?_
      · show _ = condNumber idx
          (.not :: (.lparen :: Tok.join .and (filterConditions ov f) ++ [.rparen]))
        rw [condNumber, condNumber_parens, condNumber_join_and, hnum.clauses]
        rfl
      · show condHoles (.lparen :: Tok.join .and (filterConditions ov f) ++ [.rparen]) = _
        rw [condHoles_parens, condHoles_join rfl]

theorem buildOperands_numbers {d : Dialect} :
    (fs : List WhereFilter) → {idx : ℕ} → {b : Built} →
      buildOperands ov d fs idx = .ok b → Numbers b idx (operandConditions ov fs)
  | [], idx, b, h => by
      rw [buildOperands] at h
      cases h
      rw [operandConditions]
      exact .empty idx
  | f :: fs, idx, b, h => by
      rw [buildOperands] at h
      obtain ⟨sub, hsub, h⟩ := bind_eq_ok h
      obtain ⟨rest, hrest, h⟩ := bind_eq_ok h
      cases h
      rw [operandConditions]
      have hnum := buildFilterClauses_numbers f hsub
      have hone : Numbers ⟨[operand sub.clauses], sub.params, sub.nextIndex⟩ idx
          [operand (filterConditions ov f)] := by
        refine hnum.single ?_ ?_
        · rw [condNumber_operand, hnum.clauses]
        · rw [condHoles_operand]
      exact hone.append (buildOperands_numbers fs hrest)

end

/-- The whole condition is the filter's, numbered from the offset. -/
theorem buildWhere_numbers {f : Option WhereFilter} {off : ℕ} {r : WhereResult}
    (h : buildWhere f off ov d = .ok r) :
    r.sql = condNumber off (whereCondition ov f) ∧ r.params = condHoles (whereCondition ov f) := by
  unfold buildWhere at h
  unfold whereCondition
  cases f with
  | none =>
    cases h
    exact ⟨rfl, rfl⟩
  | some f =>
    dsimp only at h ⊢
    by_cases hempty : f.isEmpty = true
    · rw [if_pos hempty] at h ⊢
      cases h
      exact ⟨rfl, rfl⟩
    · rw [if_neg hempty] at h ⊢
      obtain ⟨b, hb, h⟩ := bind_eq_ok h
      cases h
      have hnum := buildFilterClauses_numbers f hb
      refine ⟨?_, ?_⟩
      · rw [condNumber_join_and, hnum.clauses]
      · rw [condHoles_join rfl, hnum.params]

/-! ### Reading the parameters back -/

theorem paramAt_append (off : ℕ) (pre vs post : List Param) (j : ℕ) (hj : j < vs.length) :
    paramAt off (pre ++ vs ++ post) (off + pre.length + 1 + j) = vs[j]? := by
  have hgt : ¬ off + pre.length + 1 + j ≤ off := by omega
  have hidx : off + pre.length + 1 + j - off - 1 = pre.length + j := by omega
  unfold paramAt
  rw [if_neg hgt, hidx, append_assoc, getElem?_append_right (by omega),
    Nat.add_sub_cancel_left, getElem?_append_left hj]

/-- The placeholders of a numbered list read its values back. -/
theorem map_paramAt_range' (off : ℕ) (pre vs post : List Param) :
    (List.range' (off + pre.length + 1) vs.length).map (paramAt off (pre ++ vs ++ post))
      = vs.map some := by
  apply ext_getElem?
  intro j
  by_cases hj : j < vs.length
  · rw [getElem?_map, getElem?_map, getElem?_range' hj, Option.map_some,
      Nat.one_mul, paramAt_append off pre vs post j hj, getElem?_eq_getElem hj]
    rfl
  · rw [getElem?_eq_none (by simpa using hj), getElem?_eq_none (by simpa using hj)]

theorem atomMap_number (off : ℕ) (pre post : List Param) (a : Atom Param) :
    atomMap (paramAt off (pre ++ atomHoles a ++ post)) (atomNumber (off + pre.length) a)
      = atomMap some a := by
  cases a with
  | const b => rfl
  | isNull c n => rfl
  | binary c op h =>
    have hone := paramAt_append off pre [h] post 0 (by simp)
    exact congrArg (Atom.binary c op) hone
  | inList c n hs => exact congrArg (Atom.inList c n) (map_paramAt_range' off pre hs post)

/-- Substituting the parameters into a numbered condition restores it,
wherever its values stand in the parameter list. -/
theorem bindParams_number (off : ℕ) (pre post : List Param) (ts : Condition) :
    bindParams off (pre ++ condHoles ts ++ post) (condNumber (off + pre.length) ts)
      = ts.map (Tok.map (atomMap some)) := by
  induction ts generalizing pre with
  | nil => rfl
  | cons t ts ih =>
    cases t with
    | atom a =>
      have hholes : condHoles (Tok.atom a :: ts) = atomHoles a ++ condHoles ts := rfl
      have hhead := atomMap_number off pre (condHoles ts ++ post) a
      have htail := ih (pre ++ atomHoles a)
      rw [length_append, ← Nat.add_assoc] at htail
      simp only [append_assoc] at hhead htail
      simp only [hholes, bindParams, condNumber, map_cons, Tok.map, append_assoc]
      rw [hhead]
      exact congrArg _ htail
    | _ => exact congrArg _ (ih pre)

end Vertz.Proofs
