import Vertz.Spec.Fetch
import Vertz.Proofs.FilterReading
import Vertz.Proofs.Placeholders

/-!
# `Vertz.Proofs.Pages`: what one page of `buildSelect` contains

From the emitted statement to the rows it returns.
-/

namespace Vertz.Proofs

open Vertz.Lib
open Vertz.Lib.Condition
open Vertz.Db
open Vertz.Db.Sql
open Vertz.Spec List

/-! ### The statement with its parameters in place -/

theorem buildSelectWhere_eq {f : Option WhereFilter} {ov : Option CasingOverrides}
    {d : Dialect} {parts : List (WherePart ℕ)} {params : List Param}
    (h : buildSelectWhere f ov d = .ok (parts, params)) :
    parts = (if (whereCondition ov f).isEmpty then []
      else [.condition (condNumber 0 (whereCondition ov f))]) ∧
      params = condHoles (whereCondition ov f) := by
  cases f with
  | none =>
    cases h
    exact ⟨rfl, rfl⟩
  | some f =>
    obtain ⟨r, hr, h⟩ := bind_eq_ok h
    obtain ⟨hsql, hparams⟩ := buildWhere_numbers hr
    by_cases hc : (whereCondition ov (some f)).isEmpty = true
    · have hnil : whereCondition ov (some f) = [] := isEmpty_iff.mp hc
      rw [hsql, hnil] at h
      cases h
      rw [hnil]
      exact ⟨rfl, rfl⟩
    · have hsqlEmpty : ¬ r.sql.isEmpty = true := by
        intro hempty
        cases hcond : whereCondition ov (some f) with
        | nil => exact hc (by rw [hcond]; rfl)
        | cons t ts =>
          rw [hsql, hcond] at hempty
          cases t <;> cases hempty
      rw [if_neg hsqlEmpty] at h
      cases h
      rw [if_neg hc, hsql, hparams]
      exact ⟨rfl, rfl⟩

/-- The cursor's part of the WHERE in its place in the parameter list. -/
theorem buildCursor_bound (ov : Option CasingOverrides) (orderBy : Option (Record SortDir))
    (es : List (String × Js)) (acc post : List Param) :
    (buildCursor ov orderBy es acc).1.map
        (partMap (paramAt 0 ((buildCursor ov orderBy es acc).2 ++ post)))
      = (cursorMeant ov orderBy es).map (partMap some) ∧
      ∃ vs, (buildCursor ov orderBy es acc).2 = acc ++ vs := by
  match es with
  | [] => exact ⟨rfl, [], (append_nil acc).symm⟩
  | [(col, v)] =>
    refine ⟨?_, [.value v], rfl⟩
    have hone := map_paramAt_range' 0 acc [.value v] post
    rw [Nat.zero_add] at hone
    show [WherePart.cursor _ _ [paramAt 0 _ (acc ++ [Param.value v]).length]] = _
    rw [length_append]
    exact congrArg (fun hs => [WherePart.cursor _ _ hs]) hone
  | (col, v) :: e :: es =>
    simp only [buildCursor, cursorEntries_eq]
    refine ⟨?_, _, rfl⟩
    have hall := map_paramAt_range' 0 acc (((col, v) :: e :: es).map fun e => .value e.2) post
    rw [Nat.zero_add, length_map] at hall
    exact congrArg (fun hs => [WherePart.cursor _ _ hs]) hall

theorem pushNumber_bound (n : Option ℚ) (acc post : List Param) :
    (pushNumber n acc).1.map (paramAt 0 ((pushNumber n acc).2 ++ post))
        = n.map (fun q => some (.value (.num q))) ∧
      ∃ vs, (pushNumber n acc).2 = acc ++ vs := by
  cases n with
  | none => exact ⟨rfl, [], (append_nil acc).symm⟩
  | some q =>
    refine ⟨?_, [.value (.num q)], rfl⟩
    have hone := paramAt_append 0 acc [.value (.num q)] post 0 Nat.one_pos
    rw [Nat.zero_add, Nat.add_zero] at hone
    show some (paramAt 0 _ (acc ++ [Param.value (.num q)]).length) = _
    rw [length_append]
    exact congrArg some hone

/-- The statement with its parameters in place is the intended one. -/
theorem boundSelect_eq {options : SelectOptions} {d : Dialect} {r : SelectResult}
    (h : buildSelect options d = .ok r) :
    boundSelect r = selectMap some (selectMeant options) := by
  obtain ⟨⟨parts, p₀⟩, hwhere, h⟩ := bind_eq_ok h
  dsimp only at h
  obtain ⟨hparts, h₀⟩ := buildSelectWhere_eq hwhere
  generalize hcur : buildCursor options.casingOverrides options.orderBy
    ((options.cursor.map Record.entries).getD []) p₀ = cur at h
  generalize hlim : pushNumber (options.take.orElse fun _ => options.limit) cur.2 = lim at h
  generalize hoff : pushNumber options.offset lim.2 = off at h
  cases h
  -- each part is read where it stands: behind what was pushed before it
  obtain ⟨-, vsOff, hpOff⟩ := pushNumber_bound options.offset lim.2 []
  obtain ⟨-, vsLim, hpLim⟩ :=
    pushNumber_bound (options.take.orElse fun _ => options.limit) cur.2 []
  obtain ⟨-, vsCur, hpCur⟩ := buildCursor_bound options.casingOverrides options.orderBy
    ((options.cursor.map Record.entries).getD []) p₀ []
  rw [hoff] at hpOff
  rw [hlim] at hpLim
  rw [hcur] at hpCur
  have hfilter : parts.map (partMap (paramAt 0 off.2))
      = ((if (whereCondition options.casingOverrides options.where_).isEmpty then []
        else [WherePart.condition (whereCondition options.casingOverrides options.where_)]) :
          List (WherePart Param)).map (partMap some) := by
    have hall : off.2 = [] ++ condHoles (whereCondition options.casingOverrides options.where_) ++
        (vsCur ++ vsLim ++ vsOff) := by
      rw [hpOff, hpLim, hpCur, h₀]
      simp only [nil_append, append_assoc]
    rw [hparts, hall]
    split
    · rfl
    · have hbind := bindParams_number 0 [] (vsCur ++ vsLim ++ vsOff)
        (whereCondition options.casingOverrides options.where_)
      exact congrArg (fun ts => [WherePart.condition ts]) hbind
  have hcursor : cur.1.map (partMap (paramAt 0 off.2))
      = (cursorMeant options.casingOverrides options.orderBy
        ((options.cursor.map Record.entries).getD [])).map (partMap some) := by
    obtain ⟨hb, -⟩ := buildCursor_bound options.casingOverrides options.orderBy
      ((options.cursor.map Record.entries).getD []) p₀ (vsLim ++ vsOff)
    rw [hcur] at hb
    rw [hpOff, hpLim, append_assoc, hb]
  have hlimit : lim.1.map (paramAt 0 off.2)
      = (options.take.orElse fun _ => options.limit).map fun q => some (.value (.num q)) := by
    obtain ⟨hb, -⟩ :=
      pushNumber_bound (options.take.orElse fun _ => options.limit) cur.2 vsOff
    rw [hlim] at hb
    rw [hpOff, hb]
  have hoffset : off.1.map (paramAt 0 off.2)
      = options.offset.map fun q => some (.value (.num q)) := by
    obtain ⟨hb, -⟩ := pushNumber_bound options.offset lim.2 []
    rw [hoff, append_nil] at hb
    exact hb
  unfold boundSelect selectMap selectMeant
  dsimp only
  rw [List.map_append, List.map_append, hfilter, hcursor, hlimit, hoffset, Option.map_map,
    Option.map_map]
  rfl

theorem buildSelect_ok {options : SelectOptions} {d : Dialect}
    (h : ∃ r, buildWhere options.where_ 0 options.casingOverrides d = .ok r) :
    ∃ r, buildSelect options d = .ok r := by
  obtain ⟨r, hr⟩ := h
  have hwhere : ∃ p, buildSelectWhere options.where_ options.casingOverrides d = .ok p := by
    unfold buildSelectWhere
    cases hf : options.where_ with
    | none => exact ⟨_, rfl⟩
    | some f =>
      rw [hf] at hr
      dsimp only
      rw [hr, Except.bind]
      split <;> exact ⟨_, rfl⟩
  obtain ⟨⟨parts, params⟩, hp⟩ := hwhere
  unfold buildSelect
  dsimp only
  rw [hp]
  exact ⟨_, rfl⟩

/-! ### The WHERE of a page -/

/-- The condition of a whole filter, for one more operand behind it. -/
theorem whereCondition_joined {ov : Option CasingOverrides} {f : WhereFilter}
    (hwf : wellFormed f = true) (hne : (whereCondition ov (some f)).isEmpty = false) :
    ∃ cs, List.Forall₂ Reads (filterConditions ov f) cs ∧ filterConditions ov f ≠ [] ∧
      ∀ ρ, Tri.all (Cond.evals (atomValue ρ) cs) = filterValue (entryValue ov ρ) f := by
  obtain ⟨cs, hcs, hv⟩ : ReadsAll (filterConditions ov f)
      fun ρ => filterValue (entryValue ov ρ) f := filterConditions_reads f hwf
  refine ⟨cs, hcs, fun hnil => ?_, hv⟩
  rw [whereCondition_some, hnil] at hne
  cases hne

/-- A well-formed filter without a clause reads as true. -/
theorem filterValue_of_empty {ov : Option CasingOverrides} {f : WhereFilter}
    (hwf : wellFormed f = true) (hempty : (whereCondition ov (some f)).isEmpty = true)
    (ρ : Atom Param → Tri) : filterValue (entryValue ov ρ) f = .yes := by
  obtain ⟨cs, hcs, hv⟩ : ReadsAll (filterConditions ov f)
      fun ρ => filterValue (entryValue ov ρ) f := filterConditions_reads f hwf
  by_cases hnil : filterConditions ov f = []
  · rw [hnil] at hcs
    cases hcs
    exact (hv ρ).symm
  · have hc : contributes f = true := (filterConditions_ne_nil f).mp hnil
    obtain ⟨hread, -⟩ := @whereCondition_parse ov f hc
    obtain ⟨c, hparse, -⟩ := hread hwf
    rw [isEmpty_iff.mp hempty] at hparse
    cases hparse

theorem atomValue_sqlAtom (engine : Engine) (row : SqlRow) :
    atomValue (sqlAtom engine row) = fun a => sqlValue engine row (atomMap some a) := by
  funext a
  cases a <;> rfl

/-- The WHERE of a page: the filter's condition, then the cursor. -/
def pageWheres (ov : Option CasingOverrides) (where_ : Option WhereFilter)
    (cursor : Option Cursor) : List (WherePart (Option Param)) :=
  (if (whereCondition ov where_).isEmpty then []
    else [.condition ((whereCondition ov where_).map (Tok.map (atomMap some)))]) ++
    cursor.toList.map fun c => .cursor c.columns c.greater c.values

theorem and_beq_yes (a b : Tri) : (Tri.and a b == .yes) = (a == .yes && b == .yes) := by
  cases a <;> cases b <;> rfl

/-- The WHERE of a page is read, and passes the rows that match the
filter and that the cursor's comparison admits. -/
theorem readWheres_page (engine : Engine) {ov : Option CasingOverrides}
    {where_ : Option WhereFilter} (hwf : ∀ f, where_ = some f → wellFormed f = true)
    (cursor : Option Cursor) :
    ∃ c, readWheres (pageWheres ov where_ cursor) = some c ∧ ∀ row,
      admitted engine c row = (filterMatches engine ov where_ row &&
        cursor.all fun cur => cursorValue row cur == .yes) := by
  by_cases hempty : (whereCondition ov where_).isEmpty = true
  · have hmatch : ∀ row, filterMatches engine ov where_ row = true := by
      intro row
      cases where_ with
      | none => rfl
      | some f =>
        show (filterValue (entryValue ov (sqlAtom engine row)) f == .yes) = true
        rw [filterValue_of_empty (hwf f rfl) hempty]
        rfl
    unfold pageWheres
    rw [if_pos hempty]
    cases cursor with
    | none => exact ⟨.conj [], rfl, fun row => by rw [hmatch]; rfl⟩
    | some cur =>
      refine ⟨.disj [.conj [.atom (.inr cur)]], rfl, fun row => ?_⟩
      rw [hmatch, Bool.true_and]
      show (Tri.or (Tri.and (cursorValue row cur) .yes) .no == .yes) = (cursorValue row cur == .yes)
      rw [Tri.and_yes, Tri.or_no]
  · cases where_ with
    | none => exact absurd rfl hempty
    | some f =>
      rw [Bool.not_eq_true] at hempty
      obtain ⟨cs, hcs, hne, hv⟩ := whereCondition_joined (hwf f rfl) hempty
      have hvalue : ∀ row, Tri.all ((cs.map (Cond.map fun a => Sum.inl (atomMap some a))).map
            (Cond.eval (Sum.elim (sqlValue engine row) (cursorValue row))))
          = filterValue (entryValue ov (sqlAtom engine row)) f := by
        intro row
        rw [← hv, Cond.evals_eq_map, map_map, atomValue_sqlAtom]
        refine congrArg Tri.all (map_congr_left fun c _ => ?_)
        exact Cond.eval_map _ _ c
      have htoks : ((whereCondition ov (some f)).map (Tok.map (atomMap some))).map
            (Tok.map (Sum.inl : _ → Atom (Option Param) ⊕ Cursor))
          = (Tok.join .and (filterConditions ov f)).map
            (Tok.map fun a => (Sum.inl (atomMap some a) : Atom (Option Param) ⊕ Cursor)) := by
        rw [whereCondition_some, map_map]
        refine map_congr_left fun t _ => ?_
        cases t <;> rfl
      unfold pageWheres
      rw [if_neg (by rw [hempty]; decide)]
      cases cursor with
      | none =>
        refine ⟨.disj [.conj (cs.map (Cond.map fun a => Sum.inl (atomMap some a)))], ?_,
          fun row => ?_⟩
        · show parse (((whereCondition ov (some f)).map (Tok.map (atomMap some))).map
            (Tok.map Sum.inl)) = _
          rw [htoks, parse_map, parse_joinAnd hcs hne]
          simp only [Option.map_some, Cond.map, Cond.maps, Cond.maps_eq_map]
        · show (Tri.or (Tri.all (Cond.evals _ _)) .no == .yes) = _
          rw [Tri.or_no, Cond.evals_eq_map, hvalue, Option.all_none, Bool.and_true]
          rfl
      | some cur =>
        refine ⟨.disj [.conj (cs.map (Cond.map fun a => Sum.inl (atomMap some a)) ++
          [.atom (.inr cur)])], ?_, fun row => ?_⟩
        · show parse (((whereCondition ov (some f)).map (Tok.map (atomMap some))).map
            (Tok.map Sum.inl) ++ [.and, .atom (.inr cur)]) = _
          rw [htoks]
          exact parse_joinAnd_atom hcs hne _ _
        · show (Tri.or (Tri.all (Cond.evals _ _)) .no == .yes) = _
          rw [Tri.or_no, Cond.evals_eq_map, List.map_append, Tri.all_append, hvalue]
          show (Tri.and _ (Tri.and (cursorValue row cur) .yes) == .yes) = _
          rw [Tri.and_yes, and_beq_yes]
          rfl

/-! ### Pages -/

/-- The columns a cursor compares, in the database's spelling. -/
def comparedColumns (options : SelectOptions) (key : String) : List String :=
  (cursorColumns options.orderBy key).map fun col => camelToSnake col options.casingOverrides

/-- Whether a cursor compares with `>`: the direction of its first
column. -/
def comparesGreater (options : SelectOptions) (key : String) : Bool :=
  orderDir options.orderBy ((cursorColumns options.orderBy key).headD key) != .desc

/-- Whether the cursor after `r` admits `x`. -/
def cursorAdmits (options : SelectOptions) (key : String) (r x : SqlRow) : Bool :=
  compareRow (comparesGreater options key)
    ((comparedColumns options key).map fun c => (x c, r c)) == .yes

theorem cursorColumns_nodup (orderBy : Option (Record SortDir)) (key : String) :
    (cursorColumns orderBy key).Nodup := by
  have hkeys : ((orderBy.map Record.keys).getD []).Nodup := by
    cases orderBy with
    | none => exact nodup_nil
    | some order => exact order.nodup
  unfold cursorColumns
  dsimp only
  split
  · exact hkeys
  · rename_i h
    refine List.Nodup.append hkeys (nodup_singleton key) ?_
    simpa using h

theorem cursorColumns_ne_nil (orderBy : Option (Record SortDir)) (key : String) :
    cursorColumns orderBy key ≠ [] := by
  unfold cursorColumns
  dsimp only
  split
  · rename_i h
    intro hnil
    rw [hnil] at h
    cases h
  · exact append_ne_nil_of_right_ne_nil _ (cons_ne_nil _ _)

theorem cursorMeant_after (options : SelectOptions) (key : String) (r : SqlRow) :
    cursorMeant options.casingOverrides options.orderBy (cursorAfter options key r).entries
      = [.cursor (comparedColumns options key) (comparesGreater options key)
        ((comparedColumns options key).map fun c => .value (r c))] := by
  have hentries : (cursorAfter options key r).entries
      = (cursorColumns options.orderBy key).map fun col =>
        (col, r (camelToSnake col options.casingOverrides)) := by
    unfold cursorAfter
    refine Record.entries_ofList ?_
    rw [map_map]
    exact (map_id _).symm ▸ cursorColumns_nodup options.orderBy key
  rw [hentries]
  unfold comparedColumns comparesGreater
  cases hcols : cursorColumns options.orderBy key with
  | nil => exact absurd hcols (cursorColumns_ne_nil _ _)
  | cons col cols =>
    rw [map_cons, cursorMeant]
    simp only [headD_cons, map_cons, map_map]
    rfl

theorem cursorValue_after (options : SelectOptions) (key : String) (r x : SqlRow) :
    (cursorValue x ⟨comparedColumns options key, comparesGreater options key,
      ((comparedColumns options key).map fun c => Param.value (r c)).map some⟩ == .yes)
      = cursorAdmits options key r x := by
  unfold cursorValue cursorAdmits
  rw [map_map, map_map, zip_map']
  rfl

/-- A page is the matching rows its cursor admits, sorted, up to the
limit. -/
theorem pageAfter_eq {engine : Engine} {d : Dialect} {options : SelectOptions} {key : String}
    {limit : ℕ} (hread : Readable d options.casingOverrides options.where_)
    (hlimit : (options.take.orElse fun _ => options.limit) = some (limit : ℚ))
    (hoffset : options.offset = none) (table : List SqlRow) (after : Option SqlRow) :
    pageAfter engine d options key table after
      = some (((table.filter fun x =>
          filterMatches engine options.casingOverrides options.where_ x &&
            after.all fun r => cursorAdmits options key r x).mergeSort
        (orderLe engine.dialect (buildOrderBy options.casingOverrides options.orderBy
          (after.map (cursorAfter options key))))).take limit) := by
  have hok : ∃ r, buildSelect { options with cursor := after.map (cursorAfter options key) } d
      = .ok r := buildSelect_ok hread.1
  obtain ⟨r, hr⟩ := hok
  let cursor : Option Cursor := after.map fun r =>
    ⟨comparedColumns options key, comparesGreater options key,
      ((comparedColumns options key).map fun c => .value (r c)).map some⟩
  have hwheres : (selectMap some (selectMeant
        { options with cursor := after.map (cursorAfter options key) })).wheres
      = pageWheres options.casingOverrides options.where_ cursor := by
    unfold selectMap selectMeant pageWheres
    dsimp only
    rw [List.map_append]
    congr 1
    · split <;> rfl
    · cases after with
      | none => rfl
      | some r =>
        show (cursorMeant _ _ (cursorAfter options key r).entries).map (partMap some) = _
        rw [cursorMeant_after]
        rfl
  obtain ⟨c, hc, hadm⟩ := readWheres_page engine hread.2 cursor
  have hfilter : table.filter (admitted engine c) = table.filter fun x =>
      filterMatches engine options.casingOverrides options.where_ x &&
        after.all fun r => cursorAdmits options key r x := by
    refine filter_congr fun x _ => ?_
    rw [hadm]
    cases after with
    | none => rfl
    | some r =>
      show (_ && (cursorValue x _ == .yes)) = (_ && cursorAdmits options key r x)
      rw [cursorValue_after]
  have hcount : rowCount (some (.value (.num (limit : ℚ)))) = some limit := by
    unfold rowCount
    dsimp only
    rw [if_pos ⟨Rat.den_natCast _, by rw [Rat.num_natCast]; exact Int.natCast_nonneg _⟩,
      Rat.num_natCast]
    rfl
  unfold pageAfter
  rw [hr]
  dsimp only
  rw [boundSelect_eq hr]
  unfold fetch
  rw [hwheres, hc, Option.bind_some, hfilter]
  have hoff : (selectMap some (selectMeant
      { options with cursor := after.map (cursorAfter options key) })).offset = none := by
    unfold selectMap selectMeant
    dsimp only
    rw [hoffset]
    rfl
  have hlim : (selectMap some (selectMeant
      { options with cursor := after.map (cursorAfter options key) })).limit
        = some (some (.value (.num (limit : ℚ)))) := by
    unfold selectMap selectMeant
    dsimp only
    rw [hlimit]
    rfl
  rw [hoff, hlim]
  dsimp only
  rw [Option.bind_some, hcount]
  rfl

end Vertz.Proofs
