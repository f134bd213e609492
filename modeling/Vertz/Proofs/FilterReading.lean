import Vertz.Spec.Reading
import Vertz.Proofs.Numbering

/-!
# `Vertz.Proofs.FilterReading`: a filter's condition text and its reading

The condition of a well-formed filter parses, and the parsed condition
evaluates to the filter's recursive reading (`filterConditions_reads`);
the condition of a filter that is not well formed contains a clause the
reader gets stuck in (`filterConditions_broken`). Both are inductions on
the filter tree, with the same four cases as its definition.
-/

namespace Vertz.Proofs

open Vertz.Lib
open Vertz.Lib.Condition
open Vertz.Db.Sql
open Vertz.Spec List Tri

variable {ov : Option CasingOverrides}

/-- `ts` are operands that read as `cs`, and together have the value
`v`. -/
structure ReadsAll (ts : List Condition) (v : (Atom Param → Tri) → Tri) : Prop where
  reads : ∃ cs, List.Forall₂ Reads ts cs ∧ ∀ ρ, Tri.all (Cond.evals (atomValue ρ) cs) = v ρ

theorem ReadsAll.nil : ReadsAll [] fun _ => .yes :=
  ⟨[], .nil, fun _ => rfl⟩

theorem evals_append {H : Type} (ρ : Atom H → Tri) (cs ds : List (Cond (Atom H))) :
    Cond.evals ρ (cs ++ ds) = Cond.evals ρ cs ++ Cond.evals ρ ds := by
  rw [Cond.evals_eq_map, Cond.evals_eq_map, Cond.evals_eq_map, List.map_append]

theorem ReadsAll.append {ts us : List Condition} {v w : (Atom Param → Tri) → Tri}
    (ht : ReadsAll ts v) (hu : ReadsAll us w) :
    ReadsAll (ts ++ us) fun ρ => Tri.and (v ρ) (w ρ) := by
  obtain ⟨cs, hcs, hv⟩ := ht
  obtain ⟨ds, hds, hw⟩ := hu
  refine ⟨cs ++ ds, rel_append hcs hds, fun ρ => ?_⟩
  rw [evals_append, Tri.all_append, hv, hw]

theorem ReadsAll.single {t : Condition} {c : Cond (Atom Param)} {v : (Atom Param → Tri) → Tri}
    (h : Reads t c) (hv : ∀ ρ, Cond.eval (atomValue ρ) c = v ρ) : ReadsAll [t] v :=
  ⟨[c], .cons h .nil, fun ρ => by
    show Tri.and (Cond.eval (atomValue ρ) c) .yes = v ρ
    rw [and_yes, hv]⟩

variable {ts : List Condition}

theorem ReadsAll.congr {v w : (Atom Param → Tri) → Tri} (h : ReadsAll ts v) (heq : ∀ ρ, v ρ = w ρ) :
    ReadsAll ts w := by
  obtain ⟨cs, hcs, hv⟩ := h
  exact ⟨cs, hcs, fun ρ => by rw [hv, heq]⟩

theorem readsAll_atoms (as : List (Atom Param)) :
    ReadsAll (as.map fun a => [.atom a]) fun ρ => Tri.all (as.map (atomValue ρ)) := by
  induction as with
  | nil => exact .nil
  | cons a as ih =>
    have hone : ReadsAll [[.atom a]] fun ρ => atomValue ρ a :=
      .single (reads_atom a) fun _ => rfl
    exact hone.append ih

theorem entryConditions_reads (es : List (String × Js)) :
    ReadsAll (entryConditions ov es) fun ρ => Tri.all (es.map (entryValue ov ρ)) := by
  induction es with
  | nil => exact .nil
  | cons e es ih => exact (readsAll_atoms (fieldConditions ov e.1 e.2)).append ih

/-- The operand of a non-empty list of clauses. -/
theorem operand_reads {v : (Atom Param → Tri) → Tri} (h : ReadsAll ts v) (hne : ts ≠ []) :
    ∃ c, Reads (operand ts) c ∧ ∀ ρ, Cond.eval (atomValue ρ) c = v ρ := by
  obtain ⟨cs, hcs, hv⟩ := h
  unfold operand
  by_cases hlen : ts.length > 1
  · rw [if_pos hlen]
    refine ⟨_, reads_group_and hcs hne, fun ρ => ?_⟩
    rw [← hv]
    exact or_no _
  · rw [if_neg hlen]
    cases hcs with
    | nil => exact absurd rfl hne
    | @cons t c ts cs ht hts =>
      cases hts with
      | cons _ _ => simp at hlen
      | nil =>
        refine ⟨c, ht, fun ρ => ?_⟩
        rw [← hv]
        exact (and_yes _).symm

theorem eval_disj_singletons {H : Type} (ρ : Atom H → Tri) (cs : List (Cond (Atom H))) :
    Cond.eval ρ (.disj (cs.map fun c => .conj [c])) = Tri.any (Cond.evals ρ cs) := by
  show Tri.any (Cond.evals ρ (cs.map fun c => .conj [c])) = _
  rw [Cond.evals_eq_map, Cond.evals_eq_map, map_map]
  refine any_congr fun c _ => ?_
  exact and_yes _

/-! ### Which clauses there are -/

theorem fieldConditions_isEmpty (key : String) (value : Js) :
    (fieldConditions ov key value).isEmpty = (fieldConditions none key value).isEmpty := by
  unfold fieldConditions
  split
  · rfl
  · cases fieldValue value <;> simp

theorem filterConditions_ne_nil (f : WhereFilter) :
    filterConditions ov f ≠ [] ↔ contributes f = true := by
  obtain ⟨fields, OR, AND, NOT⟩ := f
  have hlogical : ∀ (sep : Tok (Atom Param)) (b : Bool) (s : Slot (List WhereFilter)),
      logicalConditions ov sep b s = [] ↔ hasValue s = false := by
    intro sep b s
    match s with
    | .absent => simp [logicalConditions, hasValue]
    | .undefined => simp [logicalConditions, hasValue]
    | .value [] => simp [logicalConditions, hasValue]
    | .value (f :: fs) => simp [logicalConditions, hasValue]
  have hnot : notConditions ov NOT = [] ↔ hasValue NOT = false := by
    cases NOT <;> simp [notConditions, hasValue]
  have hentries : entryConditions ov fields.entries = []
      ↔ fields.entries.any entryContributes = false := by
    unfold entryConditions
    rw [flatMap_eq_nil_iff, any_eq_false]
    refine forall₂_congr fun e _ => ?_
    unfold entryContributes
    rw [List.map_eq_nil_iff, ← List.isEmpty_iff, fieldConditions_isEmpty]
    simp
  rw [filterConditions, contributes]
  simp only [ne_eq, append_eq_nil_iff, hentries, hlogical, hnot, Bool.or_eq_true]
  cases fields.entries.any entryContributes <;> cases hasValue OR <;> cases hasValue AND <;>
    cases hasValue NOT <;> simp

/-! ### Well-formed filters -/

mutual

theorem filterConditions_reads : (f : WhereFilter) → wellFormed f = true →
    ReadsAll (filterConditions ov f) fun ρ => filterValue (entryValue ov ρ) f
  | .mk fields OR AND NOT, h => by
      rw [wellFormed, Bool.and_eq_true, Bool.and_eq_true] at h
      rw [filterConditions]
      have hor : ReadsAll (logicalConditions ov .or false OR) fun ρ => logicalValue (entryValue ov ρ) Tri.any OR :=
        logicalConditions_reads (.inr ⟨rfl, rfl, rfl⟩) OR h.1.1
      have hand : ReadsAll (logicalConditions ov .and true AND)
          fun ρ => logicalValue (entryValue ov ρ) Tri.all AND :=
        logicalConditions_reads (.inl ⟨rfl, rfl, rfl⟩) AND h.1.2
      refine ((((entryConditions_reads fields.entries).append hor).append hand).append
        (notConditions_reads NOT h.2)).congr fun ρ => ?_
      rw [filterValue, Tri.and_assoc, Tri.and_assoc]

theorem logicalConditions_reads {sep : Tok (Atom Param)} {identity : Bool}
    {connective : List Tri → Tri}
    (hsep : sep = .and ∧ identity = true ∧ connective = Tri.all
      ∨ sep = .or ∧ identity = false ∧ connective = Tri.any) :
    (s : Slot (List WhereFilter)) → wellFormedList s = true →
      ReadsAll (logicalConditions ov sep identity s) fun ρ => logicalValue (entryValue ov ρ) connective s
  | .absent, _ => by
      rw [logicalConditions]
      exact ReadsAll.nil.congr fun ρ => by rw [logicalValue]
  | .undefined, _ => by
      rw [logicalConditions]
      exact ReadsAll.nil.congr fun ρ => by rw [logicalValue]
  | .value [], _ => by
      rw [logicalConditions]
      refine (readsAll_atoms [.const identity]).congr fun ρ => ?_
      rw [logicalValue, filterValues]
      rcases hsep with ⟨-, rfl, rfl⟩ | ⟨-, rfl, rfl⟩ <;> rfl
  | .value (f :: fs), h => by
      rw [wellFormedList, wellFormedAll, Bool.and_eq_true] at h
      rw [logicalConditions, operandConditions]
      obtain ⟨c, hc, hv⟩ := operand_reads_of_contributes f h.1
      obtain ⟨cs, hcs, hvs⟩ := operandConditions_reads fs h.2
      rcases hsep with ⟨rfl, rfl, rfl⟩ | ⟨rfl, rfl, rfl⟩
      · refine .single (reads_group_and (.cons hc hcs) (cons_ne_nil _ _)) fun ρ => ?_
        rw [logicalValue, filterValues, ← hvs, ← hv]
        exact or_no _
      · refine .single (reads_group_or hc hcs) fun ρ => ?_
        rw [eval_disj_singletons, logicalValue, filterValues, ← hvs, ← hv]
        rfl

theorem notConditions_reads : (s : Slot WhereFilter) → wellFormedNot s = true →
    ReadsAll (notConditions ov s) fun ρ => notValue (entryValue ov ρ) s
  | .absent, _ => by
      rw [notConditions]
      exact ReadsAll.nil.congr fun ρ => by rw [notValue]
  | .undefined, _ => by
      rw [notConditions]
      exact ReadsAll.nil.congr fun ρ => by rw [notValue]
  | .value f, h => by
      rw [wellFormedNot, Bool.and_eq_true] at h
      rw [notConditions]
      obtain ⟨cs, hcs, hv⟩ := filterConditions_reads f h.2
      have hne : filterConditions ov f ≠ [] := (filterConditions_ne_nil f).mpr h.1
      refine .single (reads_not (reads_group_and hcs hne)) fun ρ => ?_
      rw [notValue, ← hv]
      exact congrArg Tri.neg (or_no _)

theorem operand_reads_of_contributes : (f : WhereFilter) →
    (contributes f && wellFormed f) = true →
    ∃ c, Reads (operand (filterConditions ov f)) c ∧
      ∀ ρ, Cond.eval (atomValue ρ) c = filterValue (entryValue ov ρ) f
  | f, h => by
      rw [Bool.and_eq_true] at h
      exact operand_reads (filterConditions_reads f h.2) ((filterConditions_ne_nil f).mpr h.1)

theorem operandConditions_reads : (fs : List WhereFilter) → wellFormedAll fs = true →
    ∃ cs, List.Forall₂ Reads (operandConditions ov fs) cs ∧
      ∀ ρ, Cond.evals (atomValue ρ) cs = filterValues (entryValue ov ρ) fs
  | [], _ => by
      rw [operandConditions]
      exact ⟨[], .nil, fun ρ => by rw [filterValues, Cond.evals]⟩
  | f :: fs, h => by
      rw [wellFormedAll, Bool.and_eq_true] at h
      obtain ⟨c, hc, hv⟩ := operand_reads_of_contributes f h.1
      obtain ⟨cs, hcs, hvs⟩ := operandConditions_reads fs h.2
      rw [operandConditions]
      exact ⟨c :: cs, .cons hc hcs, fun ρ => by rw [Cond.evals, hv, hvs, filterValues]⟩

end

/-! ### Filters that are not well formed -/

theorem exists_forall₂_reads (h : ∀ t ∈ ts, ∃ c, Reads t c) : ∃ cs, List.Forall₂ Reads ts cs := by
  induction ts with
  | nil => exact ⟨[], .nil⟩
  | cons t ts ih =>
    rw [forall_mem_cons] at h
    obtain ⟨c, hc⟩ := h.1
    obtain ⟨cs, hcs⟩ := ih h.2
    exact ⟨c :: cs, .cons hc hcs⟩

/-- Settled operands either contain a missing or stuck one, or all read. -/
theorem settled_cases (h : ∀ t ∈ ts, Settled t) :
    (∃ t ∈ ts, t = [] ∨ Stuck t) ∨ ∃ cs, List.Forall₂ Reads ts cs := by
  by_cases hbad : ∃ t ∈ ts, t = [] ∨ Stuck t
  · exact .inl hbad
  · refine .inr (exists_forall₂_reads fun t ht => ?_)
    rcases h t ht with hnil | hst | hc
    · exact absurd ⟨t, ht, .inl hnil⟩ hbad
    · exact absurd ⟨t, ht, .inr hst⟩ hbad
    · exact hc

theorem group_settled {sep : Tok (Atom Param)} (hsep : sep = .and ∨ sep = .or)
    (h : ∀ t ∈ ts, Settled t) : Settled (.lparen :: Tok.join sep ts ++ [.rparen]) := by
  cases ts with
  | nil => exact .inr (.inl stuck_empty_group)
  | cons t ts =>
    rcases settled_cases h with hbad | ⟨cs, hcs⟩
    · exact .inr (.inl (stuck_group hsep h hbad))
    · cases hcs with
      | cons ht hts =>
        rcases hsep with rfl | rfl
        · exact .inr (.inr ⟨_, reads_group_and (.cons ht hts) (cons_ne_nil _ _)⟩)
        · exact .inr (.inr ⟨_, reads_group_or ht hts⟩)

theorem operand_settled (h : ∀ t ∈ ts, Settled t) : Settled (operand ts) := by
  unfold operand
  by_cases hlen : ts.length > 1
  · rw [if_pos hlen]
    exact group_settled (.inl rfl) h
  · rw [if_neg hlen]
    match ts, hlen with
    | [], _ => exact .inl rfl
    | [t], _ => exact h t mem_cons_self
    | _ :: _ :: _, hlen => simp at hlen

theorem operand_stuck (h : ∀ t ∈ ts, Settled t) (hbad : ∃ t ∈ ts, Stuck t) :
    Stuck (operand ts) := by
  obtain ⟨t, ht, hst⟩ := hbad
  unfold operand
  by_cases hlen : ts.length > 1
  · rw [if_pos hlen]
    exact stuck_group (.inl rfl) h ⟨t, ht, .inr hst⟩
  · rw [if_neg hlen]
    match ts, hlen, ht with
    | [t'], _, ht =>
      rw [mem_singleton] at ht
      subst ht
      exact hst
    | _ :: _ :: _, hlen, _ => simp at hlen

/-- Every clause is settled, and one is stuck when the filter is not well
formed. -/
structure ReadingOutcome (ts : List Condition) (wf : Bool) : Prop where
  settled : ∀ t ∈ ts, Settled t
  stuck : wf = false → ∃ t ∈ ts, Stuck t

theorem ReadingOutcome.append {ts us : List Condition} {b c : Bool} (ht : ReadingOutcome ts b)
    (hu : ReadingOutcome us c) : ReadingOutcome (ts ++ us) (b && c) := by
  refine ⟨fun t hmem => ?_, fun h => ?_⟩
  · rcases mem_append.mp hmem with hmem | hmem
    · exact ht.settled t hmem
    · exact hu.settled t hmem
  · rcases Bool.and_eq_false_iff.mp h with h | h
    · obtain ⟨t, hmem, hst⟩ := ht.stuck h
      exact ⟨t, mem_append_left _ hmem, hst⟩
    · obtain ⟨t, hmem, hst⟩ := hu.stuck h
      exact ⟨t, mem_append_right _ hmem, hst⟩

theorem outcome_nil : ReadingOutcome [] true := by
  refine ⟨fun t h => ?_, fun h => ?_⟩ <;> cases h

/-- The clauses of the field entries are single atoms. -/
theorem outcome_entries (es : List (String × Js)) : ReadingOutcome (entryConditions ov es) true := by
  refine ⟨fun t h => ?_, fun h => by cases h⟩
  obtain ⟨e, -, ht⟩ := mem_flatMap.mp h
  obtain ⟨a, -, rfl⟩ := mem_map.mp ht
  exact .inr (.inr ⟨_, reads_atom a⟩)

mutual

theorem filterConditions_outcome : (f : WhereFilter) →
    ReadingOutcome (filterConditions ov f) (wellFormed f)
  | .mk fields OR AND NOT => by
      rw [filterConditions, wellFormed]
      have hentries : ReadingOutcome (entryConditions ov fields.entries) true :=
        outcome_entries fields.entries
      have hor : ReadingOutcome (logicalConditions ov .or false OR) (wellFormedList OR) :=
        logicalConditions_outcome (.inr rfl) OR
      have hand : ReadingOutcome (logicalConditions ov .and true AND) (wellFormedList AND) :=
        logicalConditions_outcome (.inl rfl) AND
      have hall := ((hentries.append hor).append hand).append (notConditions_outcome NOT)
      rw [Bool.true_and] at hall
      exact hall

theorem logicalConditions_outcome {sep : Tok (Atom Param)} {identity : Bool}
    (hsep : sep = .and ∨ sep = .or) : (s : Slot (List WhereFilter)) →
      ReadingOutcome (logicalConditions ov sep identity s) (wellFormedList s)
  | .absent => by
      rw [logicalConditions, wellFormedList]
      exact outcome_nil
  | .undefined => by
      rw [logicalConditions, wellFormedList]
      exact outcome_nil
  | .value [] => by
      rw [logicalConditions, wellFormedList, wellFormedAll]
      refine ⟨fun t h => ?_, fun h => by cases h⟩
      rw [mem_singleton] at h
      subst h
      exact .inr (.inr ⟨_, reads_atom _⟩)
  | .value (f :: fs) => by
      rw [logicalConditions, wellFormedList]
      obtain ⟨hsettled, hbad⟩ := operandConditions_outcome (f :: fs)
      refine ⟨fun t ht => ?_, fun h => ⟨_, mem_singleton_self _, ?_⟩⟩
      · rw [mem_singleton] at ht
        subst ht
        exact group_settled hsep hsettled
      · exact stuck_group hsep hsettled (hbad h)

theorem notConditions_outcome : (s : Slot WhereFilter) →
    ReadingOutcome (notConditions ov s) (wellFormedNot s)
  | .absent => by
      rw [notConditions, wellFormedNot]
      exact outcome_nil
  | .undefined => by
      rw [notConditions, wellFormedNot]
      exact outcome_nil
  | .value f => by
      rw [notConditions, wellFormedNot]
      have hf : ReadingOutcome (filterConditions ov f) (wellFormed f) := filterConditions_outcome f
      refine ⟨fun t ht => ?_, fun h => ⟨_, mem_singleton_self _, stuck_not ?_⟩⟩
      · rw [mem_singleton] at ht
        subst ht
        rcases group_settled (.inl rfl) hf.settled with hnil | hst | ⟨c, hc⟩
        · cases hnil
        · exact .inr (.inl (stuck_not hst))
        · exact .inr (.inr ⟨_, reads_not hc⟩)
      · by_cases hc : contributes f = true
        · rw [hc, Bool.true_and] at h
          obtain ⟨t, ht, hst⟩ := hf.stuck h
          exact stuck_group (.inl rfl) hf.settled ⟨t, ht, .inr hst⟩
        · have hnil : filterConditions ov f = [] := by
            by_contra hne
            exact hc ((filterConditions_ne_nil f).mp hne)
          rw [hnil]
          exact stuck_empty_group

theorem operandConditions_outcome : (fs : List WhereFilter) →
    (∀ t ∈ operandConditions ov fs, Settled t) ∧
      (wellFormedAll fs = false → ∃ t ∈ operandConditions ov fs, t = [] ∨ Stuck t)
  | [] => by
      rw [operandConditions, wellFormedAll]
      refine ⟨fun t h => ?_, fun h => ?_⟩ <;> cases h
  | f :: fs => by
      rw [operandConditions, wellFormedAll]
      have hf : ReadingOutcome (filterConditions ov f) (wellFormed f) := filterConditions_outcome f
      obtain ⟨hsettled, hbad⟩ := operandConditions_outcome fs
      refine ⟨?_, fun h => ?_⟩
      · rw [forall_mem_cons]
        exact ⟨operand_settled hf.settled, hsettled⟩
      · rcases Bool.and_eq_false_iff.mp h with h | h
        · refine ⟨_, mem_cons_self, ?_⟩
          by_cases hc : contributes f = true
          · rw [hc, Bool.true_and] at h
            exact .inr (operand_stuck hf.settled (hf.stuck h))
          · have hnil : filterConditions ov f = [] := by
              by_contra hne
              exact hc ((filterConditions_ne_nil f).mp hne)
            rw [hnil]
            exact .inl rfl
        · obtain ⟨t, ht, hst⟩ := hbad h
          exact ⟨t, mem_cons_of_mem _ ht, hst⟩

end

/-! ### Whole conditions -/

/-- The shortcut for an empty filter changes nothing. -/
theorem whereCondition_some (f : WhereFilter) :
    whereCondition ov (some f) = Tok.join .and (filterConditions ov f) := by
  show (if f.isEmpty then [] else Tok.join .and (filterConditions ov f)) = _
  cases h : f.isEmpty with
  | false => rfl
  | true =>
    obtain ⟨fields, OR, AND, NOT⟩ := f
    simp only [WhereFilter.isEmpty, Bool.and_eq_true, List.isEmpty_iff] at h
    obtain ⟨⟨⟨hfields, hor⟩, hand⟩, hnot⟩ := h
    cases OR <;> cases AND <;> cases NOT <;> simp only [Slot.isAbsent, reduceCtorEq] at hor hand hnot
    rw [filterConditions, hfields]
    simp [entryConditions, logicalConditions, notConditions]

/-- The condition of a contributing filter parses exactly when the filter
is well formed, and then evaluates to its recursive reading. -/
theorem whereCondition_parse (f : WhereFilter) (hc : contributes f = true) :
    (wellFormed f = true → ∃ c, parse (whereCondition ov (some f)) = some c ∧
      ∀ ρ, Cond.eval (atomValue ρ) c = filterValue (entryValue ov ρ) f) ∧
    (wellFormed f = false → parse (whereCondition ov (some f)) = none) := by
  have hne : filterConditions ov f ≠ [] := (filterConditions_ne_nil f).mpr hc
  rw [whereCondition_some]
  constructor
  · intro hwf
    obtain ⟨cs, hcs, hv⟩ : ReadsAll (filterConditions ov f) fun ρ => filterValue (entryValue ov ρ) f :=
      filterConditions_reads f hwf
    refine ⟨_, parse_joinAnd hcs hne, fun ρ => ?_⟩
    rw [← hv]
    exact or_no _
  · intro hwf
    have hout : ReadingOutcome (filterConditions ov f) (wellFormed f) := filterConditions_outcome f
    exact parse_joinAnd_stuck hout.settled (hout.stuck hwf)

end Vertz.Proofs
