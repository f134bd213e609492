import Vertz.Proofs.Numbering

/-!
# `Vertz.Proofs.Placeholders`: placeholder alignment of the statements

From the WHERE builder's numbering to whole statements. WHERE and
SELECT text is always the intended text numbered left to right
(`buildWhere_text`, `buildSelect_text`), and numbered text is aligned
(`aligned_renumber`). In an UPDATE the `SET` fragments are renumbered by
textual occurrence of `$k`, so alignment there depends on the fragments:
`placeholders_aligned` says exactly on what.
-/

namespace Vertz.Proofs

open Vertz.Lib
open Vertz.Db
open Vertz.Db.Sql
open Vertz.Spec
open List hiding map_append

variable {H : Type}

/-! ### Numbered text -/

variable (i : ℕ)

theorem renumber_append (a b : SqlText H) :
    renumber i (a ++ b) = renumber i a ++ renumber (i + a.holes.length) b := by
  induction a generalizing i with
  | nil => rfl
  | cons p a ih =>
    cases p with
    | text s => exact congrArg _ (ih i)
    | hole h =>
      rw [cons_append, renumber, renumber, ih, holes_hole, length_cons,
        cons_append, Nat.add_assoc, Nat.add_comm 1]

/-- A numbered text's placeholders are consecutive. -/
theorem holes_renumber (t : SqlText H) :
    (renumber i t).holes = List.range' (i + 1) t.holes.length := by
  induction t generalizing i with
  | nil => rfl
  | cons p t ih =>
    cases p with
    | text s => exact ih i
    | hole h =>
      rw [renumber, holes_hole, holes_hole, ih, length_cons, range'_succ]

/-- Reading a numbered text's placeholders back: `g` is what each
placeholder of the original stands for. -/
theorem map_renumber (off : ℕ) (pre vs post : List Param) (t : SqlText H) (g : H → Option Param)
    (h : t.holes.map g = vs.map some) :
    (renumber (off + pre.length) t).map (paramAt off (pre ++ vs ++ post)) = t.map g := by
  induction t generalizing pre vs with
  | nil => rfl
  | cons p t ih =>
    cases p with
    | text s => exact congrArg (Piece.text s :: ·) (ih pre vs h)
    | hole k =>
      cases vs with
      | nil => cases h
      | cons v vs =>
        rw [holes_hole, map_cons, map_cons, List.cons.injEq] at h
        have hhead := paramAt_append off pre (v :: vs) post 0 (by simp)
        have htail := ih (pre ++ [v]) vs h.2
        rw [append_assoc pre [v] vs, length_append] at htail
        rw [renumber, map_hole, map_hole, h.1]
        rw [Nat.add_zero] at hhead
        rw [hhead]
        exact congrArg (Piece.hole (some v) :: ·) htail

/-- Numbered text is aligned with its own values. -/
theorem aligned_renumber (off : ℕ) (t : SqlText Param) :
    Aligned off (renumber off t) t.holes (t.map some) := by
  have hmap := map_renumber off [] t.holes [] t some rfl
  rw [nil_append, append_nil] at hmap
  exact ⟨holes_renumber off t, hmap⟩

/-! ### Condition text -/

theorem renumber_join (hs : List H) :
    renumber i (SqlText.join ", " (hs.map fun h => [.hole h]))
      = SqlText.join ", " ((List.range' (i + 1) hs.length).map fun n => [.hole n]) := by
  induction hs generalizing i with
  | nil => rfl
  | cons h hs ih =>
    cases hs with
    | nil => rfl
    | cons h' hs =>
      have hrest := ih (i + 1)
      rw [length_cons, range'_succ, map_cons, map_cons, map_cons,
        join_cons_cons, renumber_append, renumber]
      rw [map_cons] at hrest
      rw [length_cons, range'_succ, map_cons] at hrest
      rw [length_cons, range'_succ, map_cons, join_cons_cons]
      exact congrArg (fun t => Piece.hole (i + 1) :: Piece.text ", " :: t) hrest

theorem holes_joinHoles (hs : List H) :
    (SqlText.join ", " (hs.map fun h => [.hole h])).holes = hs := by
  rw [holes_join, flatMap_map]
  exact flatMap_singleton' hs

theorem renumber_atomText (a : Atom H) : renumber i a.text = (atomNumber i a).text := by
  cases a with
  | const b => cases b <;> rfl
  | isNull c n => cases n <;> rfl
  | binary c op h => rfl
  | inList c n hs =>
    cases n <;>
      (simp only [Atom.text, atomNumber, cons_append]
       rw [renumber, renumber_append, renumber_join]
       rfl)

theorem holes_atomText (a : Atom H) : a.text.holes = atomHoles a := by
  cases a with
  | const b => cases b <;> rfl
  | isNull c n => cases n <;> rfl
  | binary c op h => rfl
  | inList c n hs =>
    cases n <;>
      (simp only [Atom.text, atomHoles, cons_append]
       rw [holes_text, holes_append, holes_joinHoles]
       exact append_nil hs)

theorem holes_clauseText (ts : List (Tok (Atom H))) : (clauseText ts).holes = condHoles ts := by
  induction ts with
  | nil => rfl
  | cons t ts ih =>
    have hcons : clauseText (t :: ts) = tokText t ++ clauseText ts := rfl
    rw [hcons, holes_append, ih]
    cases t with
    | atom a =>
      show a.text.holes ++ condHoles ts = atomHoles a ++ condHoles ts
      rw [holes_atomText]
    | _ => rfl

theorem clauseText_condNumber (ts : List (Tok (Atom H))) :
    clauseText (condNumber i ts) = renumber i (clauseText ts) := by
  induction ts generalizing i with
  | nil => rfl
  | cons t ts ih =>
    have hcons : clauseText (t :: ts) = tokText t ++ clauseText ts := rfl
    rw [hcons, renumber_append]
    cases t with
    | atom a =>
      show (atomNumber i a).text ++ clauseText (condNumber _ ts)
        = renumber i a.text ++ renumber (i + a.text.holes.length) (clauseText ts)
      rw [ih, renumber_atomText, holes_atomText]
    | _ =>
      rw [condNumber]
      show _ ++ clauseText (condNumber i ts) = _ ++ renumber (i + 0) (clauseText ts)
      rw [ih]
      rfl

theorem buildWhere_text {f : Option WhereFilter} {off : ℕ} {ov : Option CasingOverrides}
    {d : Dialect} {r : WhereResult} (h : buildWhere f off ov d = .ok r) :
    clauseText r.sql = renumber off (clauseText (whereCondition ov f)) ∧
      r.params = (clauseText (whereCondition ov f)).holes := by
  obtain ⟨hsql, hparams⟩ := buildWhere_numbers h
  rw [hsql, hparams, clauseText_condNumber, holes_clauseText]
  exact ⟨rfl, rfl⟩

theorem condNumber_isEmpty (ts : List (Tok (Atom H))) : (condNumber i ts).isEmpty = ts.isEmpty := by
  cases ts with
  | nil => rfl
  | cons t ts => cases t <;> rfl

/-! ### Consecutive texts -/

/-- Texts numbered one after the other. -/
def numberTexts (i : ℕ) : List (SqlText H) → List (SqlText ℕ)
  | [] => []
  | t :: ts => renumber i t :: numberTexts (i + t.holes.length) ts

theorem numberTexts_append (ts us : List (SqlText H)) :
    numberTexts i (ts ++ us)
      = numberTexts i ts ++ numberTexts (i + (ts.flatMap SqlText.holes).length) us := by
  induction ts generalizing i with
  | nil => rfl
  | cons t ts ih =>
    rw [cons_append, numberTexts, numberTexts, ih, flatMap_cons, length_append,
      cons_append, Nat.add_assoc]

theorem renumber_joinTexts (sep : String) (i : ℕ) (ts : List (SqlText H)) :
    renumber i (SqlText.join sep ts) = SqlText.join sep (numberTexts i ts) := by
  induction ts generalizing i with
  | nil => rfl
  | cons t ts ih =>
    cases ts with
    | nil => rfl
    | cons t' ts =>
      rw [join_cons_cons, renumber_append, renumber, ih]
      rfl

/-- Numbering does not look at what the placeholders were. -/
theorem renumber_map {K : Type} (f : H → K) (t : SqlText H) :
    renumber i (t.map f) = renumber i t := by
  induction t generalizing i with
  | nil => rfl
  | cons p t ih =>
    cases p with
    | text s => exact congrArg _ (ih i)
    | hole h => exact congrArg _ (ih (i + 1))

theorem text_map_id (t : SqlText H) : SqlText.map id t = t := by
  have hpiece : (Piece.map id : Piece H → _) = id := by
    funext p
    cases p <;> rfl
  show List.map (Piece.map id) t = t
  rw [hpiece, map_id]

/-- Numbered text is aligned with a parameter list that holds what its
placeholders were. -/
theorem aligned_of_holes (off : ℕ) (t : SqlText (Option Param)) (vs : List Param)
    (h : t.holes = vs.map some) : Aligned off (renumber off t) vs t := by
  have hmap := map_renumber off [] vs [] t id (by rw [map_id, h])
  rw [nil_append, append_nil, text_map_id] at hmap
  refine ⟨?_, hmap⟩
  rw [holes_renumber, h, length_map]

/-! ### SELECT -/

theorem buildSelectWhere_text {f : Option WhereFilter} {ov : Option CasingOverrides}
    {d : Dialect} {parts : List (WherePart ℕ)} {params : List Param}
    (h : buildSelectWhere f ov d = .ok (parts, params)) :
    let meant : List (WherePart Param) :=
      if (whereCondition ov f).isEmpty then [] else [.condition (whereCondition ov f)]
    parts.map WherePart.text = numberTexts 0 (meant.map WherePart.text) ∧
      params = (meant.map WherePart.text).flatMap SqlText.holes := by
  cases f with
  | none =>
    cases h
    exact ⟨rfl, rfl⟩
  | some f =>
    obtain ⟨r, hr, h⟩ := bind_eq_ok h
    obtain ⟨hsql, hparams⟩ := buildWhere_numbers hr
    have hempty : r.sql.isEmpty = (whereCondition ov (some f)).isEmpty := by
      rw [hsql, condNumber_isEmpty]
    by_cases hc : (whereCondition ov (some f)).isEmpty = true
    · rw [if_pos (hempty.trans hc)] at h
      cases h
      simp only [if_pos hc]
      exact ⟨rfl, rfl⟩
    · rw [if_neg (by rw [hempty]; exact hc)] at h
      cases h
      simp only [if_neg hc]
      obtain ⟨htext, hholes⟩ := buildWhere_text hr
      refine ⟨congrArg (fun t => [t]) htext, ?_⟩
      rw [hholes]
      exact (append_nil _).symm

theorem cursorEntries_eq (ov : Option CasingOverrides) (es : List (String × Js))
    (acc : List Param) :
    cursorEntries ov es acc = (es.map fun e => camelToSnake e.1 ov,
      List.range' (acc.length + 1) es.length, acc ++ es.map fun e => .value e.2) := by
  induction es generalizing acc with
  | nil =>
    rw [cursorEntries, List.map_nil, List.map_nil, List.append_nil]
    rfl
  | cons e es ih =>
    obtain ⟨col, v⟩ := e
    rw [cursorEntries, ih]
    simp only [length_append, map_cons, length_cons, length_nil,
      Nat.zero_add, range'_succ, append_assoc, singleton_append]

/-- A row comparison numbered from `i + 1`. -/
theorem renumber_cursorText (cols : List String) (g : Bool) (hs : List H) :
    renumber i (WherePart.cursor cols g hs).text
      = (WherePart.cursor cols g (List.range' (i + 1) hs.length)).text := by
  have hlong : ∀ (s : String), renumber i (.text s ::
        SqlText.join ", " (hs.map fun h => [.hole h]) ++ [.text ")"])
      = .text s :: SqlText.join ", "
          ((List.range' (i + 1) hs.length).map fun n => [.hole n]) ++ [.text ")"] := by
    intro s
    rw [cons_append, renumber, renumber_append, renumber_join]
    rfl
  match cols, hs with
  | [c], [h] => rfl
  | [], hs => exact hlong _
  | [c], [] => exact hlong _
  | [c], h :: h' :: hs => exact hlong _
  | c :: c' :: cols, hs => exact hlong _

theorem holes_cursorText (cols : List String) (g : Bool) (hs : List H) :
    (WherePart.cursor cols g hs).text.holes = hs := by
  have hlong : ∀ (s : String), SqlText.holes (.text s ::
      SqlText.join ", " (hs.map fun h => [.hole h]) ++ [.text ")"]) = hs := by
    intro s
    rw [cons_append, holes_text, holes_append, holes_joinHoles]
    exact append_nil hs
  match cols, hs with
  | [c], [h] => rfl
  | [], hs => exact hlong _
  | [c], [] => exact hlong _
  | [c], h :: h' :: hs => exact hlong _
  | c :: c' :: cols, hs => exact hlong _

theorem buildCursor_text (ov : Option CasingOverrides) (orderBy : Option (Record SortDir))
    (es : List (String × Js)) (acc : List Param) :
    (buildCursor ov orderBy es acc).1.map WherePart.text
        = numberTexts acc.length ((cursorMeant ov orderBy es).map WherePart.text) ∧
      (buildCursor ov orderBy es acc).2
        = acc ++ ((cursorMeant ov orderBy es).map WherePart.text).flatMap SqlText.holes := by
  match es with
  | [] => exact ⟨rfl, (append_nil acc).symm⟩
  | [(col, v)] =>
    refine ⟨?_, rfl⟩
    show [WherePart.text (.cursor _ _ [(acc ++ [Param.value v]).length])] = _
    rw [length_append]
    rfl
  | (col, v) :: e :: es =>
    simp only [buildCursor, cursorEntries_eq, cursorMeant, List.map_cons, List.map_nil,
      numberTexts, flatMap_cons, flatMap_nil, append_nil]
    rw [renumber_cursorText, holes_cursorText]
    refine ⟨?_, rfl⟩
    simp only [length_cons, length_map]

theorem wheresText_renumber {i : ℕ} {ws : List (WherePart ℕ)} {ms : List (WherePart Param)}
    (h : ws.map WherePart.text = numberTexts i (ms.map WherePart.text)) :
    wheresText ws = renumber i (wheresText ms) := by
  cases ms with
  | nil =>
    cases ws with
    | nil => rfl
    | cons w ws => cases h
  | cons m ms =>
    cases ws with
    | nil => cases h
    | cons w ws =>
      show .text " WHERE " :: SqlText.join " AND " ((w :: ws).map WherePart.text)
        = .text " WHERE " :: renumber i (SqlText.join " AND " ((m :: ms).map WherePart.text))
      rw [h, renumber_joinTexts]

theorem holes_wheresText (ms : List (WherePart H)) :
    (wheresText ms).holes = (ms.map WherePart.text).flatMap SqlText.holes := by
  cases ms with
  | nil => rfl
  | cons m ms =>
    show (SqlText.join " AND " ((m :: ms).map WherePart.text)).holes = _
    rw [holes_join]

theorem holes_orderByText (o : List (String × SortDir)) :
    (orderByText o : SqlText H).holes = [] := by
  unfold orderByText
  split <;> rfl

theorem renumber_orderByText (o : List (String × SortDir)) :
    renumber i (orderByText o : SqlText H) = orderByText o := by
  unfold orderByText
  split <;> rfl

/-- A LIMIT or OFFSET placeholder after `i` others. -/
theorem numberText_pushNumber (keyword : String) (n : Option ℚ) (acc : List Param) :
    numberText keyword (pushNumber n acc).1
        = renumber acc.length (numberText keyword (n.map fun q => Param.value (.num q))) ∧
      (pushNumber n acc).2
        = acc ++ (numberText keyword (n.map fun q => Param.value (.num q))).holes := by
  cases n with
  | none => exact ⟨rfl, (append_nil acc).symm⟩
  | some q =>
    refine ⟨?_, rfl⟩
    show [Piece.text keyword, .hole (acc ++ [Param.value (.num q)]).length] = _
    rw [length_append]
    rfl

theorem buildSelect_text {options : SelectOptions} {d : Dialect} {r : SelectResult}
    (h : buildSelect options d = .ok r) :
    r.sql.text = renumber 0 (selectMeant options).text ∧
      r.params = (selectMeant options).text.holes := by
  obtain ⟨⟨parts, p₀⟩, hwhere, h⟩ := bind_eq_ok h
  dsimp only at h
  obtain ⟨hparts, h₀⟩ := buildSelectWhere_text hwhere
  -- each later clause starts after the parameters of the ones before it
  obtain ⟨hcursor, h₁⟩ := buildCursor_text options.casingOverrides options.orderBy
    ((options.cursor.map Record.entries).getD []) p₀
  generalize buildCursor options.casingOverrides options.orderBy
    ((options.cursor.map Record.entries).getD []) p₀ = cur at h hcursor h₁
  obtain ⟨hlimit, h₂⟩ :=
    numberText_pushNumber " LIMIT " (options.take.orElse fun _ => options.limit) cur.2
  generalize pushNumber (options.take.orElse fun _ => options.limit) cur.2 = lim at h hlimit h₂
  obtain ⟨hoffset, h₃⟩ := numberText_pushNumber " OFFSET " options.offset lim.2
  generalize pushNumber options.offset lim.2 = off at h hoffset h₃
  cases h
  have hwheres : (parts ++ cur.1).map WherePart.text
      = numberTexts 0 ((selectMeant options).wheres.map WherePart.text) := by
    rw [List.map_append, hparts, hcursor, h₀]
    simp only [selectMeant, List.map_append, numberTexts_append, Nat.zero_add]
  have hholes : cur.2 = (wheresText (selectMeant options).wheres).holes := by
    rw [h₁, h₀, holes_wheresText]
    simp only [selectMeant, List.map_append, flatMap_append]
  refine ⟨?_, ?_⟩
  · show Piece.text _ :: (wheresText (parts ++ cur.1) ++ orderByText _ ++ numberText _ lim.1 ++
        numberText _ off.1) = renumber 0 (Piece.text _ :: (wheresText (selectMeant options).wheres ++
          orderByText _ ++ numberText _ _ ++ numberText _ _))
    rw [renumber, renumber_append, renumber_append, renumber_append, renumber_orderByText,
      wheresText_renumber hwheres, hlimit, hoffset, h₂, hholes]
    simp only [holes_append, holes_orderByText, append_nil, Nat.zero_add]
    rfl
  · show off.2 = SqlText.holes (Piece.text _ :: (wheresText _ ++ orderByText _ ++ numberText _ _ ++
      numberText _ _))
    rw [h₃, h₂, hholes, holes_text, holes_append, holes_append, holes_append,
      holes_orderByText, append_nil]
    rfl

/-! ### UPDATE -/

theorem atomText_map {K : Type} (f : H → K) (a : Atom H) : (atomMap f a).text = a.text.map f := by
  cases a with
  | const b => cases b <;> rfl
  | isNull c n => cases n <;> rfl
  | binary c op h => rfl
  | inList c n hs =>
    have hholes : SqlText.map f (SqlText.join ", " (hs.map fun h => [.hole h]))
        = SqlText.join ", " ((hs.map f).map fun h => [.hole h]) := by
      rw [map_join, map_map, map_map]
      rfl
    cases n <;>
      (simp only [atomMap, Atom.text, cons_append, map_text, map_append, hholes]
       rfl)

theorem clauseText_map {K : Type} (f : H → K) (ts : List (Tok (Atom H))) :
    clauseText (ts.map (Tok.map (atomMap f))) = (clauseText ts).map f := by
  induction ts with
  | nil => rfl
  | cons t ts ih =>
    have hcons : clauseText (t :: ts) = tokText t ++ clauseText ts := rfl
    rw [hcons, map_append, ← ih]
    cases t with
    | atom a => exact congrArg (· ++ _) (atomText_map f a)
    | _ => rfl

theorem buildStatementWhere_text {f : Option WhereFilter} {off : ℕ} {d : Dialect}
    {clause : Option Clause} {params : List Param}
    (h : buildStatementWhere f off d = .ok (clause, params)) :
    let condition := (f.map fun f => whereCondition none (some f)).getD []
    let meant : Option (List (Tok (Atom (Option Param)))) :=
      if condition.isEmpty then none else some (condition.map (Tok.map (atomMap some)))
    whereText clause = renumber off (whereText meant) ∧ params.map some = (whereText meant).holes := by
  cases f with
  | none =>
    cases h
    exact ⟨rfl, rfl⟩
  | some f =>
    obtain ⟨r, hr, h⟩ := bind_eq_ok h
    obtain ⟨hsql, hparams⟩ := buildWhere_text hr
    have hempty : r.sql.isEmpty = (whereCondition none (some f)).isEmpty := by
      rw [(buildWhere_numbers hr).1, condNumber_isEmpty]
    by_cases hc : (whereCondition none (some f)).isEmpty = true
    · rw [if_pos (hempty.trans hc)] at h
      cases h
      simp only [Option.map_some, Option.getD_some, if_pos hc]
      exact ⟨rfl, rfl⟩
    · rw [if_neg (by rw [hempty]; exact hc)] at h
      cases h
      simp only [Option.map_some, Option.getD_some, if_neg hc]
      refine ⟨?_, ?_⟩
      · show .text " WHERE " :: clauseText r.sql = .text " WHERE " :: renumber off (clauseText _)
        rw [hsql, clauseText_map, renumber_map]
      · show r.params.map some = (clauseText _).holes
        rw [hparams, clauseText_map, holes_map]

section Sets

variable (now : List String) (d : Dialect)

/-- The parameters one entry of the data pushes. -/
def setParams (e : String × SetValue) : List Param := (buildSet now d e.1 e.2 0).2

theorem buildSet_params (key : String) (v : SetValue) (off : ℕ) :
    (buildSet now d key v off).2 = setParams now d (key, v) := by
  cases v with
  | expr build => rfl
  | param v =>
    unfold setParams buildSet
    dsimp only
    split <;> rfl

theorem setArity_eq (key : String) (v : SetValue) :
    setArity now key v = (setParams now d (key, v)).length := by
  cases v with
  | expr build =>
    show _ = ((fragmentOf key build).params.map Param.value).length
    rw [length_map]
    rfl
  | param v =>
    unfold setParams buildSet setArity
    dsimp only
    split <;> rfl

/-- One SET clause is the intended one, numbered from its offset. -/
theorem buildSet_text (key : String) (v : SetValue) (off : ℕ) :
    (buildSet now d key v off).1.text = renumber off (setMeant now d key v).text := by
  cases v with
  | expr build =>
    show Piece.text _ :: renumber off (scanParams _)
      = Piece.text _ :: renumber off (SqlText.map _ (scanParams _))
    rw [renumber_map]
    rfl
  | param v =>
    unfold buildSet setMeant
    dsimp only
    split <;> rfl

/-- An entry is in order exactly when its placeholders stand for its
parameters. -/
theorem setParams_iff (key : String) (v : SetValue) :
    (setMeant now d key v).value.holes = (setParams now d (key, v)).map some
      ↔ ValueInOrder key v := by
  cases v with
  | expr build =>
    show (SqlText.map _ (scanParams _)).holes = (List.map _ _).map some ↔ FragmentInOrder _
    rw [holes_map, map_map]
    rfl
  | param v =>
    unfold setParams buildSet setMeant
    dsimp only
    split <;> simp [ValueInOrder]

variable (es : List (String × SetValue))

theorem buildSets_params (acc : List Param) :
    (buildSets now d es acc).2 = acc ++ es.flatMap (setParams now d) := by
  induction es generalizing acc with
  | nil => exact (append_nil acc).symm
  | cons e es ih =>
    obtain ⟨key, v⟩ := e
    show (buildSets now d es (acc ++ (buildSet now d key v acc.length).2)).2 = _
    rw [ih, buildSet_params, flatMap_cons, append_assoc]

/-- Each SET clause has as many placeholders as the intended one. -/
theorem buildSets_holes_length (acc : List Param) :
    (buildSets now d es acc).1.map (fun s => s.value.holes.length)
      = es.map fun e => (setMeant now d e.1 e.2).value.holes.length := by
  induction es generalizing acc with
  | nil => rfl
  | cons e es ih =>
    obtain ⟨key, v⟩ := e
    have htext := buildSet_text now d key v acc.length
    have hlen := congrArg (fun t => (SqlText.holes t).length) htext
    rw [holes_renumber, length_range'] at hlen
    show (buildSet now d key v acc.length).1.value.holes.length ::
      (buildSets now d es (acc ++ (buildSet now d key v acc.length).2)).1.map _ = _ :: _
    rw [ih]
    exact congrArg (· :: _) hlen

/-- When every clause has one placeholder for each of its parameters, the
SET list is the intended one, numbered from the offset. -/
theorem buildSets_text (acc : List Param)
    (h : ∀ e ∈ es, (setMeant now d e.1 e.2).value.holes.length = (setParams now d e).length) :
    (buildSets now d es acc).1.map SetClause.text
      = numberTexts acc.length (es.map fun e => (setMeant now d e.1 e.2).text) := by
  induction es generalizing acc with
  | nil => rfl
  | cons e es ih =>
    obtain ⟨key, v⟩ := e
    rw [forall_mem_cons] at h
    have hhead : (setMeant now d key v).text.holes.length
        = (buildSet now d key v acc.length).2.length := by
      rw [buildSet_params]
      exact h.1
    show (buildSet now d key v acc.length).1.text ::
      (buildSets now d es (acc ++ (buildSet now d key v acc.length).2)).1.map SetClause.text = _
    rw [ih _ h.2, buildSet_text, map_cons, numberTexts, hhead, length_append]

end Sets

/-- Equal concatenations of pieces of equal lengths have equal pieces. -/
theorem flatMap_eq_of_lengths {α β : Type} {f g : α → List β} {xs : List α} {r r' : List β}
    (hlen : ∀ x ∈ xs, (f x).length = (g x).length)
    (h : xs.flatMap f ++ r = xs.flatMap g ++ r') : ∀ x ∈ xs, f x = g x := by
  induction xs with
  | nil => intro x hx; cases hx
  | cons x xs ih =>
    rw [forall_mem_cons] at hlen ⊢
    rw [flatMap_cons, flatMap_cons, append_assoc, append_assoc] at h
    obtain ⟨hx, hrest⟩ := append_inj h hlen.1
    exact ⟨hx, ih hlen.2 hrest⟩

theorem holes_returningText (r : Option Returning) : (returningText r : SqlText H).holes = [] := by
  match r with
  | none => rfl
  | some .all => rfl
  | some (.columns names) => rfl

theorem renumber_returningText (r : Option Returning) :
    renumber i (returningText r : SqlText H) = returningText r := by
  match r with
  | none => rfl
  | some .all => rfl
  | some (.columns names) => rfl

/-- An UPDATE whose SET clauses have their own placeholders is the
intended one, numbered from the left; its parameters are the SET values
followed by those of the WHERE. -/
theorem buildUpdate_text {options : UpdateOptions} {d : Dialect} {r : UpdateResult}
    (h : buildUpdate options d = .ok r) :
    (OwnPlaceholders options r.sql ↔ ∀ e ∈ options.data.entries,
        (setMeant options.nowColumns d e.1 e.2).value.holes.length
          = (setParams options.nowColumns d e).length) ∧
      (OwnPlaceholders options r.sql →
        r.sql.text = renumber 0 (updateMeant options d).text) ∧
      r.params.map some
        = options.data.entries.flatMap (fun e => (setParams options.nowColumns d e).map some) ++
          (whereText (updateMeant options d).where_).holes := by
  unfold buildUpdate at h
  have hparams := buildSets_params options.nowColumns d options.data.entries []
  have hlengths := buildSets_holes_length options.nowColumns d options.data.entries []
  have htexts := buildSets_text options.nowColumns d options.data.entries []
  generalize buildSets options.nowColumns d options.data.entries [] = sets
    at h hparams hlengths htexts
  obtain ⟨⟨clause, params⟩, hwhere, h⟩ := bind_eq_ok h
  cases h
  obtain ⟨hclause, hvalues⟩ := buildStatementWhere_text hwhere
  have hown : OwnPlaceholders options ⟨options.table, sets.1, clause, options.returning⟩ ↔
      ∀ e ∈ options.data.entries, (setMeant options.nowColumns d e.1 e.2).value.holes.length
        = (setParams options.nowColumns d e).length := by
    unfold OwnPlaceholders
    dsimp only
    rw [hlengths, map_inj_left]
    refine forall₂_congr fun e _ => ?_
    rw [setArity_eq options.nowColumns d]
  refine ⟨hown, ?_, ?_⟩
  · intro how
    have hall := hown.mp how
    have hsets := htexts hall
    have hlen : (SqlText.join ", " (options.data.entries.map
        fun e => (setMeant options.nowColumns d e.1 e.2).text)).holes.length = sets.2.length := by
      rw [holes_join, hparams, nil_append, flatMap_map, length_flatMap,
        length_flatMap]
      exact congrArg List.sum (map_congr_left hall)
    show Piece.text _ :: (SqlText.join ", " (sets.1.map SetClause.text) ++ whereText clause ++
        returningText _) = renumber 0 (Piece.text _ :: (SqlText.join ", "
          ((updateMeant options d).sets.map SetClause.text) ++ whereText _ ++ returningText _))
    have hmeant : (updateMeant options d).sets.map SetClause.text
        = options.data.entries.map fun e => (setMeant options.nowColumns d e.1 e.2).text := by
      unfold updateMeant
      dsimp only
      rw [map_map]
      rfl
    rw [renumber, renumber_append, renumber_append, renumber_returningText, renumber_joinTexts,
      hmeant, hsets, hlen, hclause, Nat.zero_add]
    rfl
  · show (sets.2 ++ params).map some = _
    rw [hparams, nil_append, List.map_append, map_flatMap, hvalues]
    rfl

theorem holes_updateText {K : Type} (s : UpdateSql K) :
    s.text.holes = s.sets.flatMap (fun c => c.value.holes) ++ (whereText s.where_).holes := by
  show SqlText.holes (SqlText.join ", " (s.sets.map SetClause.text) ++ whereText s.where_ ++
    returningText s.returning) = _
  rw [holes_append, holes_append, holes_returningText, append_nil, holes_join,
    flatMap_map]
  rfl

/-- `{ age: { gt: 5 } }` behind two other parameters. -/
def ageFilter : WhereFilter :=
  .mk (.ofList [("age", .obj [("gt", .num 5)])]) .absent .absent .absent

/-- `SET name = name || '$5' || x`: the fragment's text holds a `$5` that
is not one of its parameters. -/
def dollarTextUpdate : UpdateOptions where
  table := "users"
  data := .ofList [("name", .expr fun col => ⟨col.sql ++ " || '$5' || $1", [.str "x"]⟩)]
  where_ := none
  returning := none
  nowColumns := []

end Vertz.Proofs
