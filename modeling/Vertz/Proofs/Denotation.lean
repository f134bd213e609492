import Vertz.Spec.Engine
import Vertz.Proofs.FilterReading

/-!
# `Vertz.Proofs.Denotation`: what an emitted condition selects

The text emitted for a filter parses exactly when the filter is well
formed, and on a faithful filter the database's reading of it is the
filter's plain reading.
-/

namespace Vertz.Proofs

open Vertz.Lib
open Vertz.Lib.Condition
open Vertz.Db
open Vertz.Db.Sql
open Vertz.Spec List

variable {engine : Engine} {ov : Option CasingOverrides}

/-! ### LIKE -/

theorem escapeLikeChars_eq (cs : List Char) : escapeLikeChars cs = Like.escape cs := by
  unfold escapeLikeChars Like.escape
  refine flatMap_congr fun c _ => ?_
  have hiff : (c = '\\' ∨ c = '%' ∨ c = '_') ↔ Like.isMeta c = true := by
    simp only [Like.isMeta, Bool.or_eq_true, beq_iff_eq]
    tauto
  by_cases h : c = '\\' ∨ c = '%' ∨ c = '_'
  · rw [if_pos h, if_pos (hiff.mp h)]
  · rw [if_neg h, if_neg (fun h' => h (hiff.mpr h'))]

/-- An operand the dialect matches literally compiles to its own
characters, which the dialect tells apart from all others. -/
theorem likeFaithful_spec {s : String} (h : likeFaithful engine (.str s) = true) :
    (∀ rest, Like.compile (likeEscape engine.dialect) (escapeLikeChars s.toList ++ rest)
      = s.toList.map .lit ++ Like.compile (likeEscape engine.dialect) rest) ∧
    Like.Exact (likeSame engine.dialect) s.toList := by
  simp only [likeFaithful, Bool.and_eq_true, Bool.or_eq_true, all_eq_true,
    Bool.not_eq_true', beq_iff_eq] at h
  obtain ⟨hesc, hcase⟩ := h
  refine ⟨fun rest => ?_, fun c hc d => ?_⟩
  · rw [escapeLikeChars_eq]
    cases hd : engine.dialect with
    | postgres => exact Like.compile_escape _ _
    | sqlite =>
      rw [hd] at hesc
      rcases hesc with hesc | hplain
      · cases hesc
      · rw [Like.escape_plain hplain]
        exact Like.compile_plain (.inl rfl) hplain rest
  · cases hd : engine.dialect with
    | postgres => exact beq_iff_eq
    | sqlite =>
      rw [hd] at hcase
      rcases hcase with hcase | halpha
      · cases hcase
      · exact Like.sameFolded_eq (halpha c hc)

theorem likeEscape_cases (d : DialectName) : likeEscape d = none ∨ likeEscape d = some '\\' := by
  cases d
  · exact .inr rfl
  · exact .inl rfl

theorem toList_escapeLikeValue (s : String) :
    (escapeLikeValue s).toList = escapeLikeChars s.toList :=
  String.toList_ofList

theorem likeMatches_contains {s : String} (h : likeFaithful engine (.str s) = true) (v : Js) :
    likeMatches engine v (.str ("%" ++ escapeLikeValue s ++ "%"))
      = containsText (fun p t => decide (p <:+: t)) v (.str s) := by
  obtain ⟨hcompile, hexact⟩ := likeFaithful_spec h
  cases v with
  | str t =>
    have hpat : ("%" ++ escapeLikeValue s ++ "%").toList
        = '%' :: (escapeLikeChars s.toList ++ ['%']) := by
      rw [String.toList_append, String.toList_append, toList_escapeLikeValue]
      rfl
    show Like.matchElems _ (Like.compile _ (String.toList _)) _ = decide _
    rw [hpat, Like.compile_percent (likeEscape_cases _), hcompile,
      Like.compile_percent (likeEscape_cases _) [], Bool.eq_iff_iff, decide_eq_true_iff]
    exact Like.matches_contains hexact t.toList
  | _ => rfl

theorem likeMatches_startsWith {s : String} (h : likeFaithful engine (.str s) = true) (v : Js) :
    likeMatches engine v (.str (escapeLikeValue s ++ "%"))
      = containsText (fun p t => decide (p <+: t)) v (.str s) := by
  obtain ⟨hcompile, hexact⟩ := likeFaithful_spec h
  cases v with
  | str t =>
    have hpat : (escapeLikeValue s ++ "%").toList = escapeLikeChars s.toList ++ ['%'] := by
      rw [String.toList_append, toList_escapeLikeValue]
      rfl
    show Like.matchElems _ (Like.compile _ (String.toList _)) _ = decide _
    rw [hpat, hcompile, Like.compile_percent (likeEscape_cases _) [], Bool.eq_iff_iff,
      decide_eq_true_iff]
    exact Like.matches_startsWith hexact t.toList
  | _ => rfl

theorem likeMatches_endsWith {s : String} (h : likeFaithful engine (.str s) = true) (v : Js) :
    likeMatches engine v (.str ("%" ++ escapeLikeValue s))
      = containsText (fun p t => decide (p <:+ t)) v (.str s) := by
  obtain ⟨hcompile, hexact⟩ := likeFaithful_spec h
  cases v with
  | str t =>
    have hpat : ("%" ++ escapeLikeValue s).toList = '%' :: (escapeLikeChars s.toList ++ []) := by
      rw [String.toList_append, toList_escapeLikeValue, append_nil]
      rfl
    show Like.matchElems _ (Like.compile _ (String.toList _)) _ = decide _
    rw [hpat, Like.compile_percent (likeEscape_cases _), hcompile, Bool.eq_iff_iff,
      decide_eq_true_iff]
    have hnil : Like.compile (likeEscape engine.dialect) [] = [] := rfl
    rw [hnil, append_nil]
    exact Like.matches_endsWith hexact t.toList
  | _ => rfl

/-! ### Operators -/

variable {row : SqlRow} {c : ColumnRef}

/-- What SQL compares is the value itself, when a path holds text. -/
theorem sqlCell_eq
    (h : c.path.isEmpty = true ∨ (cell row c).isNullish = true ∨ isString (cell row c) = true) :
    sqlCell engine row c = cell row c := by
  unfold sqlCell
  rcases h with h | h | h
  · rw [h, Bool.true_or, if_pos rfl]
  · rw [h, Bool.or_true, if_pos rfl]
  · cases hv : cell row c with
    | str s =>
      rw [engine.textOf_str]
      split <;> rfl
    | _ =>
      rw [hv] at h
      cases h

theorem sqlOperand_eq {w : Js}
    (h : c.path.isEmpty = true ∨ w.isNullish = true ∨ isString w = true) :
    sqlOperand engine c w = w := by
  unfold sqlOperand
  rcases h with h | h | h
  · rw [h, Bool.true_or, if_pos rfl]
  · rw [h, Bool.or_true, if_pos rfl]
  · cases w with
    | str s =>
      rw [engine.textOf_str]
      split <;> rfl
    | _ => cases h

/-- `IN` over values none of which is absent. -/
theorem any_strict_eq (v : Js) {ws : List Js} (hne : ws ≠ [])
    (h : ∀ w ∈ ws, w.isNullish = false) :
    Tri.any (ws.map (strict (· == ·) v)) = Tri.unknownIf v.isNullish (ws.any fun w => v == w) := by
  have hstrict : ∀ w ∈ ws, strict (· == ·) v w = Tri.unknownIf v.isNullish (v == w) := by
    intro w hw
    unfold strict
    rw [h w hw, Bool.or_false]
  rw [Tri.any_congr hstrict]
  cases v.isNullish with
  | false => exact Tri.any_ofBool _ ws
  | true =>
    clear h hstrict
    induction ws with
    | nil => exact absurd rfl hne
    | cons w ws ih =>
      rw [map_cons, Tri.any_cons]
      cases ws with
      | nil => rfl
      | cons w' ws =>
        rw [ih (cons_ne_nil _ _)]
        rfl

/-- Membership of values none of which is absent is equality with one of
them. -/
theorem any_sameValue (v : Js) {ws : List Js} (h : ∀ w ∈ ws, w.isNullish = false) :
    ws.any (sameValue v) = ws.any fun w => v == w := by
  induction ws with
  | nil => rfl
  | cons w ws ih =>
    rw [forall_mem_cons] at h
    rw [any_cons, any_cons, ih h.2]
    unfold sameValue
    rw [if_neg (by rw [h.1]; decide)]

/-- A strict binary operator of the engine. -/
theorem sqlAtom_value {op : SqlOp} {w : Js} (hcell : sqlCell engine row c = cell row c)
    (hoperand : sqlOperand engine c w = w) :
    sqlAtom engine row (.binary c op (.value w))
      = strict (sqlRelation engine op) (cell row c) w := by
  show strict _ (sqlCell engine row c) (sqlOperand engine c w) = _
  rw [hcell, hoperand]

theorem sqlAtom_json {op : SqlOp} {w : Js} (hcell : sqlCell engine row c = cell row c)
    (hoperand : sqlOperand engine c w = w) :
    sqlAtom engine row (.binary c op (.json w)) = strict (sqlRelation engine op) (cell row c) w :=
  sqlAtom_value hcell hoperand

/-- A set operator over values none of which is absent. -/
theorem sqlAtom_inList {w : Js} (hcell : sqlCell engine row c = cell row c)
    (h : (elems w).all (fun x => !x.isNullish && (c.path.isEmpty || isString x)) = true)
    (negated : Bool) :
    sqlAtom engine row (inCondition c negated w) = (if negated then Tri.neg else id) (Tri.unknownIf
            ((cell row c).isNullish && !(elems w).isEmpty && !(elems w).any Js.isNullish)
            ((elems w).any (sameValue (cell row c)))) := by
  simp only [all_eq_true, Bool.and_eq_true, Bool.not_eq_true', Bool.or_eq_true] at h
  have hpresent : ∀ x ∈ elems w, x.isNullish = false := fun x hx => (h x hx).1
  have hnone : (elems w).any Js.isNullish = false := by
    rw [any_eq_false]
    intro x hx
    rw [hpresent x hx]
    decide
  rw [any_sameValue _ hpresent, hnone]
  cases w with
  | arr items =>
    cases items with
    | nil =>
      cases negated <;> simp [inCondition, sqlAtom, atomMap, sqlValue, elems, Tri.ofBool, Tri.neg]
    | cons x xs =>
      have hoperands : ((x :: xs).map fun w => strict (· == ·) (sqlCell engine row c)
          (sqlOperand engine c w)) = (x :: xs).map (strict (· == ·) (cell row c)) := by
        refine map_congr_left fun y hy => ?_
        rw [hcell, sqlOperand_eq ((h y hy).2.imp_right .inr)]
      have hany := any_strict_eq (cell row c) (cons_ne_nil x xs) hpresent
      have hlist : sqlAtom engine row (inCondition c negated (.arr (x :: xs)))
          = (if negated then Tri.neg else id)
              (Tri.any ((x :: xs).map (strict (· == ·) (cell row c)))) := by
        rw [← hoperands]
        show (if negated then Tri.neg (Tri.any _) else Tri.any _) = _
        rw [map_map, map_map]
        cases negated <;> rfl
      rw [hlist, hany]
      simp [elems]
  | _ =>
    cases negated <;> simp [inCondition, sqlAtom, atomMap, sqlValue, elems, Tri.ofBool, Tri.neg]

/-- A faithful operator on a typed column: its condition has the
operator's plain value. By cases on the operator. -/
theorem operatorCondition_value {k : OperatorKey} {w : Js}
    (hf : operatorFaithful engine c k w = true)
    (ht : (c.path.isEmpty || k == .isNull || (cell row c).isNullish || isString (cell row c))
      = true) :
    sqlAtom engine row (operatorCondition c k w) = operatorValue engine (cell row c) k w := by
  have hcell : k ≠ .isNull → sqlCell engine row c = cell row c := by
    intro hk
    refine sqlCell_eq ?_
    simpa [hk, or_assoc] using ht
  unfold operatorValue
  cases k
  case eq =>
    simp only [operatorFaithful, Bool.and_eq_true, Bool.not_eq_true', Bool.or_eq_true] at hf
    rw [operatorCondition, sqlAtom_value (hcell (by decide)) (sqlOperand_eq (hf.2.imp_right .inr))]
    simp [strict, undecided, operatorHolds, sameValue, sqlRelation, hf.1]
  case ne =>
    simp only [operatorFaithful, Bool.and_eq_true, Bool.not_eq_true', Bool.or_eq_true] at hf
    rw [operatorCondition, sqlAtom_value (hcell (by decide)) (sqlOperand_eq (hf.2.imp_right .inr))]
    simp [strict, undecided, operatorHolds, sameValue, sqlRelation, hf.1, bne]
  case gt | gte | lt | lte =>
    simp only [operatorFaithful, Bool.or_eq_true, or_assoc] at hf
    rw [operatorCondition, sqlAtom_value (hcell (by decide)) (sqlOperand_eq hf)]
    exact (Tri.unknownIf_guard _ _ _).symm
  case contains | startsWith | endsWith =>
    cases w with
    | str s =>
      rw [operatorCondition, likeCondition,
        sqlAtom_value (hcell (by decide)) (sqlOperand_eq (.inr (.inr rfl)))]
      simp only [strict, undecided, operatorHolds, sqlRelation, Js.isNullish_str, Bool.or_false]
      first
        | rw [likeMatches_contains hf]
        | rw [likeMatches_startsWith hf]
        | rw [likeMatches_endsWith hf]
    | _ => cases hf
  case in_ =>
    exact sqlAtom_inList (hcell (by decide)) hf false
  case notIn =>
    rw [operatorCondition, sqlAtom_inList (hcell (by decide)) hf true]
    exact Tri.neg_unknownIf _ _
  case isNull =>
    show Tri.ofBool ((cell row c).isNullish != !w.truthy) = Tri.ofBool _
    congr 1
    show ((cell row c).isNullish != !w.truthy) = ((cell row c).isNullish == w.truthy)
    cases (cell row c).isNullish <;> cases w.truthy <;> rfl
  case hasAllKeys | hasAnyKey =>
    simp only [operatorFaithful, Bool.and_eq_true] at hf
    cases w with
    | arr items =>
      cases items with
      | nil =>
        simp [operatorCondition, keySetCondition, sqlAtom, atomMap, sqlValue, undecided,
          operatorHolds, elems]
      | cons x xs =>
        rw [operatorCondition, keySetCondition,
          sqlAtom_value (hcell (by decide)) (sqlOperand_eq (.inl hf.1))]
        · simp only [strict, undecided, operatorHolds, sqlRelation, Js.isNullish_arr, elems]
          cases (cell row c).isNullish <;> rfl
        · simp
    | _ => cases hf.2
  case jsonContains | jsonContainedBy =>
    rw [operatorCondition, sqlAtom_json (hcell (by decide)) (sqlOperand_eq (.inl hf))]
    exact (Tri.unknownIf_guard _ _ _).symm
  case arrayContains | arrayContainedBy | arrayOverlaps | hasKey =>
    rw [operatorCondition, sqlAtom_value (hcell (by decide)) (sqlOperand_eq (.inl hf))]
    exact (Tri.unknownIf_guard _ _ _).symm

/-! ### Field entries -/

theorem eq_undefined_of_fieldValue {value : Js} (h : fieldValue value = .direct .undefined) :
    value = .undefined := by
  cases value with
  | undefined => rfl
  | obj es =>
    unfold fieldValue at h
    split at h
    · cases h
    · dsimp only at h
      split at h <;> cases h
  | _ => simp [fieldValue, isJsonbPathDescriptor] at h

/-- Apart from a direct `undefined`, an entry's conditions are those of
its operators. -/
theorem fieldConditions_eq {key : String} {value : Js}
    (h : value = .undefined → key = "OR" ∨ key = "AND" ∨ key = "NOT") :
    fieldConditions ov key value
      = (entryOperators ov key value).map fun (c, k, v) => operatorCondition c k v := by
  unfold fieldConditions entryOperators
  by_cases hkey : key = "OR" ∨ key = "AND" ∨ key = "NOT"
  · rw [if_pos hkey, if_pos hkey]
    rfl
  · rw [if_neg hkey, if_neg hkey]
    cases hv : fieldValue value with
    | path segments op =>
      dsimp only
      rw [map_map]
      rfl
    | null => rfl
    | operators operators =>
      dsimp only
      rw [map_map]
      rfl
    | direct v =>
      cases v with
      | undefined => exact absurd (h (eq_undefined_of_fieldValue hv)) hkey
      | _ => rfl

theorem entryValue_eq {e : String × Js} (hf : entryFaithful engine ov e = true)
    (ht : entryTyped ov row e = true) :
    entryValue ov (sqlAtom engine row) e = plainValue engine ov row e := by
  obtain ⟨key, value⟩ := e
  simp only [entryFaithful, Bool.and_eq_true, all_eq_true] at hf
  simp only [entryTyped, all_eq_true] at ht
  have hdirect : value = .undefined → key = "OR" ∨ key = "AND" ∨ key = "NOT" := by
    rintro rfl
    have hkeys := hf.1
    simpa [or_assoc] using hkeys
  have hconst : ∀ a : Atom Param, atomValue (sqlAtom engine row) a = sqlAtom engine row a := by
    intro a
    cases a <;> rfl
  unfold entryValue plainValue
  rw [fieldConditions_eq hdirect, map_map]
  refine Tri.all_congr fun ckv hckv => ?_
  obtain ⟨c, k, w⟩ := ckv
  show atomValue _ _ = _
  rw [hconst]
  exact operatorCondition_value (hf.2 _ hckv) (ht _ hckv)

/-! ### Filter trees -/

section Trees

variable {E E' : String × Js → Tri}

mutual

/-- Readings that agree on every entry agree on the filter. -/
theorem filterValue_congr : (f : WhereFilter) → (∀ e ∈ allEntries f, E e = E' e) →
    filterValue E f = filterValue E' f
  | .mk fields OR AND NOT, h => by
      simp only [allEntries, forall_mem_append] at h
      rw [filterValue, filterValue, Tri.all_congr h.1.1.1, logicalValue_congr OR h.1.1.2,
        logicalValue_congr AND h.1.2, notValue_congr NOT h.2]

theorem logicalValue_congr {connective : List Tri → Tri} : (s : Slot (List WhereFilter)) →
    (∀ e ∈ allEntriesList s, E e = E' e) →
      logicalValue E connective s = logicalValue E' connective s
  | .absent, _ => by rw [logicalValue, logicalValue]
  | .undefined, _ => by rw [logicalValue, logicalValue]
  | .value fs, h => by
      rw [allEntriesList] at h
      rw [logicalValue, logicalValue, filterValues_congr fs h]

theorem notValue_congr : (s : Slot WhereFilter) → (∀ e ∈ allEntriesNot s, E e = E' e) →
    notValue E s = notValue E' s
  | .absent, _ => by rw [notValue, notValue]
  | .undefined, _ => by rw [notValue, notValue]
  | .value f, h => by
      rw [allEntriesNot] at h
      rw [notValue, notValue, filterValue_congr f h]

theorem filterValues_congr : (fs : List WhereFilter) → (∀ e ∈ allEntriesAll fs, E e = E' e) →
    filterValues E fs = filterValues E' fs
  | [], _ => by rw [filterValues, filterValues]
  | f :: fs, h => by
      rw [allEntriesAll, forall_mem_append] at h
      rw [filterValues, filterValues, filterValue_congr f h.1, filterValues_congr fs h.2]

end

/-- Lists of values of which the same members hold. -/
def SameYes (ts us : List Tri) : Prop := List.Forall₂ (fun t u => t = .yes ↔ u = .yes) ts us

theorem all_yes_iff {ts us : List Tri} (h : SameYes ts us) :
    Tri.all ts = .yes ↔ Tri.all us = .yes := by
  induction h with
  | nil => exact Iff.rfl
  | cons ht _ ih => rw [Tri.all_cons, Tri.all_cons, Tri.and_eq_yes, Tri.and_eq_yes, ht, ih]

theorem any_yes_iff {ts us : List Tri} (h : SameYes ts us) :
    Tri.any ts = .yes ↔ Tri.any us = .yes := by
  induction h with
  | nil => exact Iff.rfl
  | cons ht _ ih => rw [Tri.any_cons, Tri.any_cons, Tri.or_eq_yes, Tri.or_eq_yes, ht, ih]

mutual

/-- Readings that agree on which entries hold, and agree outright on
those inside a `NOT`, agree on whether the filter holds. -/
theorem filterValue_yes_iff : (f : WhereFilter) →
    (∀ e ∈ positiveEntries f, (E e = .yes ↔ E' e = .yes)) →
    (∀ e ∈ negatedEntries f, E e = E' e) → (filterValue E f = .yes ↔ filterValue E' f = .yes)
  | .mk fields OR AND NOT, hp, hq => by
      simp only [positiveEntries, forall_mem_append] at hp
      simp only [negatedEntries, forall_mem_append] at hq
      have hfields : SameYes (fields.entries.map E) (fields.entries.map E') := by
        unfold SameYes
        rw [forall₂_map_left_iff, forall₂_map_right_iff, forall₂_same]
        exact hp.1.1
      rw [filterValue, filterValue, Tri.and_eq_yes, Tri.and_eq_yes, Tri.and_eq_yes,
        Tri.and_eq_yes, Tri.and_eq_yes, Tri.and_eq_yes, all_yes_iff hfields,
        logicalValue_yes_iff any_yes_iff OR hp.1.2 hq.1.1,
        logicalValue_yes_iff all_yes_iff AND hp.2 hq.1.2, notValue_congr NOT hq.2]

theorem logicalValue_yes_iff {connective : List Tri → Tri}
    (hc : ∀ {ts us}, SameYes ts us → (connective ts = .yes ↔ connective us = .yes)) :
    (s : Slot (List WhereFilter)) → (∀ e ∈ positiveEntriesList s, (E e = .yes ↔ E' e = .yes)) →
      (∀ e ∈ negatedEntriesList s, E e = E' e) →
      (logicalValue E connective s = .yes ↔ logicalValue E' connective s = .yes)
  | .absent, _, _ => by rw [logicalValue, logicalValue]
  | .undefined, _, _ => by rw [logicalValue, logicalValue]
  | .value fs, hp, hq => by
      rw [positiveEntriesList] at hp
      rw [negatedEntriesList] at hq
      rw [logicalValue, logicalValue]
      exact hc (filterValues_sameYes fs hp hq)

theorem filterValues_sameYes : (fs : List WhereFilter) →
    (∀ e ∈ positiveEntriesAll fs, (E e = .yes ↔ E' e = .yes)) →
    (∀ e ∈ negatedEntriesAll fs, E e = E' e) → SameYes (filterValues E fs) (filterValues E' fs)
  | [], _, _ => by
      rw [filterValues, filterValues]
      exact .nil
  | f :: fs, hp, hq => by
      rw [positiveEntriesAll, forall_mem_append] at hp
      rw [negatedEntriesAll, forall_mem_append] at hq
      rw [filterValues, filterValues]
      exact .cons (filterValue_yes_iff f hp.1 hq.1) (filterValues_sameYes fs hp.2 hq.2)

end

end Trees

/-! ### Three-valued and two-valued readings -/

theorem operatorValue_of_decided {v : Js} {k : OperatorKey} {w : Js}
    (h : undecided v k w = false) :
    operatorValue engine v k w = Tri.ofBool (operatorHolds engine v k w) := by
  unfold operatorValue
  rw [h]
  rfl

theorem sameValue_absent {v w : Js} (hv : v.isNullish = true) (hw : w.isNullish = false) :
    sameValue v w = false := by
  unfold sameValue
  rw [if_neg (by rw [hw]; decide), beq_eq_false_iff_ne]
  rintro rfl
  rw [hv] at hw
  cases hw

theorem not_holds_of_undecided {v : Js} {k : OperatorKey} {w : Js} (hne : k ≠ .ne)
    (hnotIn : k ≠ .notIn) (h : undecided v k w = true) : operatorHolds engine v k w = false := by
  cases k
  case ne => exact absurd rfl hne
  case notIn => exact absurd rfl hnotIn
  case eq =>
    simp only [undecided, Bool.and_eq_true, Bool.not_eq_true'] at h
    exact sameValue_absent h.1 h.2
  case contains | startsWith | endsWith =>
    simp only [undecided] at h
    cases v with
    | str s => cases h
    | _ => rfl
  case in_ =>
    simp only [undecided, Bool.and_eq_true, Bool.not_eq_true', any_eq_false] at h
    simp only [operatorHolds, any_eq_false]
    intro w hw
    rw [sameValue_absent h.1.1 (by simpa using h.2 w hw)]
    decide
  case isNull => cases h
  case hasAllKeys | hasAnyKey =>
    simp only [undecided, Bool.and_eq_true, Bool.not_eq_true'] at h
    simp [operatorHolds, h.1, h.2]
  all_goals
    simp only [undecided, Bool.or_eq_true] at h
    rcases h with h | h <;> simp [operatorHolds, h]

/-- On a decided entry the two readings agree outright. -/
theorem plainValue_of_decided {e : String × Js} (h : entryDecided ov row e = true) :
    plainValue engine ov row e = Tri.ofBool (plainHolds engine ov row e) := by
  simp only [entryDecided, all_eq_true, Bool.not_eq_true'] at h
  unfold plainValue plainHolds
  rw [← Tri.all_ofBool]
  exact Tri.all_congr fun ckv hckv => operatorValue_of_decided (h ckv hckv)

/-- On a settled entry they agree on whether it holds. -/
theorem plainValue_of_settled {e : String × Js} (h : entrySettled ov row e = true) :
    plainValue engine ov row e = .yes ↔ Tri.ofBool (plainHolds engine ov row e) = .yes := by
  simp only [entrySettled, all_eq_true, Bool.or_eq_true, Bool.and_eq_true, bne_iff_ne,
    Bool.not_eq_true'] at h
  unfold plainValue plainHolds
  rw [Tri.all_eq_yes, Tri.ofBool_eq_yes, all_eq_true, forall_mem_map]
  refine forall₂_congr fun ckv hckv => ?_
  obtain ⟨c, k, w⟩ := ckv
  show operatorValue engine (cell row c) k w = .yes ↔ operatorHolds engine (cell row c) k w = true
  cases hu : undecided (cell row c) k w with
  | false => rw [operatorValue_of_decided hu, Tri.ofBool_eq_yes]
  | true =>
    rcases h _ hckv with hk | hdec
    · have hfalse : operatorHolds engine (cell row c) k w = false :=
        not_holds_of_undecided hk.1 hk.2 hu
      unfold operatorValue
      rw [hu, hfalse]
      simp
    · exact absurd (hdec.symm.trans hu) (by decide)

/-! ### Whole conditions -/

theorem join_filterConditions_ne_nil {f : WhereFilter} (hc : contributes f = true) :
    Tok.join .and (filterConditions ov f) ≠ [] := by
  have hout : ReadingOutcome (filterConditions ov f) (wellFormed f) := filterConditions_outcome f
  cases h : wellFormed f with
  | false =>
    obtain ⟨t, ht, hst⟩ := hout.stuck h
    refine Tok.join_ne_nil ht fun hnil => ?_
    subst hnil
    cases hst [] .start
  | true =>
    obtain ⟨cs, hcs, -⟩ : ReadsAll (filterConditions ov f)
        fun ρ => filterValue (entryValue ov ρ) f := filterConditions_reads f h
    cases hclauses : filterConditions ov f with
    | nil => exact absurd hclauses ((filterConditions_ne_nil f).mpr hc)
    | cons t ts =>
      rw [hclauses] at hcs
      cases hcs with
      | cons ht _ =>
        refine Tok.join_ne_nil mem_cons_self fun hnil => ?_
        subst hnil
        cases ht [] .start

/-- The emitted condition with its parameters in place, as the database
reads it, is the filter's condition. -/
theorem readClause_bound (engine : Engine) {f : WhereFilter} {off : ℕ} {d : Dialect}
    {r : WhereResult} (h : buildWhere (some f) off ov d = .ok r) :
    ((readClause (bindParams off r.params r.sql)).isSome ↔ wellFormed f = true) ∧
      ∀ c, readClause (bindParams off r.params r.sql) = some c →
        ∀ row, Cond.eval (sqlValue engine row) c
          = filterValue (entryValue ov (sqlAtom engine row)) f := by
  obtain ⟨hsql, hparams⟩ := buildWhere_numbers h
  have hbound : bindParams off r.params r.sql
      = (whereCondition ov (some f)).map (Tok.map (atomMap some)) := by
    have hbind := bindParams_number off [] [] (whereCondition ov (some f))
    rw [nil_append, append_nil, length_nil, Nat.add_zero] at hbind
    rw [hsql, hparams, hbind]
  rw [hbound]
  cases hc : contributes f with
  | false =>
    have hnil : filterConditions ov f = [] := by
      by_contra hne
      rw [(filterConditions_ne_nil f).mp hne] at hc
      cases hc
    rw [whereCondition_some, hnil]
    obtain ⟨cs, hcs, hv⟩ : ReadsAll (filterConditions ov f)
        fun ρ => filterValue (entryValue ov ρ) f := by
      refine filterConditions_reads f ?_
      obtain ⟨fields, OR, AND, NOT⟩ := f
      cases OR <;> cases AND <;> cases NOT <;>
        simp_all [contributes, hasValue, wellFormed, wellFormedList, wellFormedNot]
    rw [hnil] at hcs
    cases hcs
    refine ⟨⟨fun _ => ?_, fun _ => rfl⟩, fun c hsome row => ?_⟩
    · obtain ⟨fields, OR, AND, NOT⟩ := f
      cases OR <;> cases AND <;> cases NOT <;>
        simp_all [contributes, hasValue, wellFormed, wellFormedList, wellFormedNot]
    · cases hsome
      exact hv _
  | true =>
    have htext : (whereCondition ov (some f)).isEmpty = false := by
      rw [isEmpty_eq_false_iff, whereCondition_some]
      exact join_filterConditions_ne_nil hc
    obtain ⟨hwf, hbroken⟩ := @whereCondition_parse ov f hc
    have hread : readClause ((whereCondition ov (some f)).map (Tok.map (atomMap some)))
        = (parse (whereCondition ov (some f))).map (Cond.map (atomMap some)) := by
      unfold readClause
      rw [isEmpty_map, htext, parse_map]
      rfl
    rw [hread]
    cases h : wellFormed f with
    | false => simp [hbroken h]
    | true =>
      obtain ⟨c, hparse, hv⟩ := hwf h
      rw [hparse]
      refine ⟨by simp, fun c' hc' row => ?_⟩
      cases hc'
      rw [← hv, Cond.eval_map]
      refine congrArg (fun ρ => Cond.eval ρ c) (funext fun a => ?_)
      cases a <;> rfl

/-- `{ name: { contains: 'a_b' }, NOT: { age: { gt: 40 } } }`. -/
def nameFilter : WhereFilter :=
  .mk (.ofList [("name", .obj [("contains", .str "a_b")])]) .absent .absent
    (.value (.mk (.ofList [("age", .obj [("gt", .num 40)])]) .absent .absent .absent))

def nameRow : SqlRow := fun c => if c = "name" then .str "xa_by" else .num 30

/-- The condition emitted for `nameFilter`, as read back. -/
def nameCond : Cond (Atom (Option Param)) :=
  .disj [.conj
    [.atom (.binary ⟨"name", []⟩ .like (some (.value (.str "%a\\_b%")))),
      .neg (.disj [.conj [.atom (.binary ⟨"age", []⟩ .gt (some (.value (.num 40))))]])]]

end Vertz.Proofs
