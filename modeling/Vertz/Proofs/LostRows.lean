import Vertz.Proofs.ListPages

/-!
# `Vertz.Proofs.LostRows`: rows that following the cursors does not reach

`list_pages_complete_iff` puts them together with `listsAll_of_keyLed`.
-/

namespace Vertz.Proofs

open Vertz.Lib
open Vertz.Lib.Keyset
open Vertz.Db
open Vertz.Db.Sql
open Vertz.Spec
open Vertz.Server.Entity List

/-! ### First places where lists part -/

theorem exists_first_failure {α : Type} {P : α → Prop} : ∀ {as : List α}, ¬ (∀ a ∈ as, P a) →
    ∃ pre a post, as = pre ++ a :: post ∧ (∀ a' ∈ pre, P a') ∧ ¬ P a
  | [], h => absurd (fun a ha => by cases ha) h
  | a :: as, h => by
      by_cases ha : P a
      · have hrest : ¬ ∀ a' ∈ as, P a' := fun hall => h (forall_mem_cons.mpr ⟨ha, hall⟩)
        obtain ⟨pre, b, post, rfl, hpre, hb⟩ := exists_first_failure hrest
        exact ⟨a :: pre, b, post, rfl, forall_mem_cons.mpr ⟨ha, hpre⟩, hb⟩
      · exact ⟨[], a, as, rfl, fun _ hnil => absurd hnil not_mem_nil, ha⟩

/-- Where a list that does not begin another one parts from it. -/
theorem exists_parting {α : Type} : ∀ {as bs : List α}, ¬ as <+: bs →
    ∃ pre a post, as = pre ++ a :: post ∧
      (bs = pre ∨ ∃ b rest, bs = pre ++ b :: rest ∧ b ≠ a)
  | [], bs, h => absurd nil_prefix h
  | a :: as, [], _ => ⟨[], a, as, rfl, .inl rfl⟩
  | a :: as, b :: bs, h => by
      by_cases heq : b = a
      · subst heq
        have hrest : ¬ as <+: bs := fun hp => h (cons_prefix_cons.mpr ⟨rfl, hp⟩)
        obtain ⟨pre, a', post, rfl, hpart⟩ := exists_parting hrest
        refine ⟨b :: pre, a', post, rfl, ?_⟩
        rcases hpart with rfl | ⟨b', rest, rfl, hne⟩
        · exact .inl rfl
        · exact .inr ⟨b', rest, rfl, hne⟩
      · exact ⟨[], a, as, rfl, .inr ⟨b, bs, rfl, heq⟩⟩

theorem compareRow_ties {greater : Bool} : ∀ {ties : List (Js × Js)} (rest : List (Js × Js)),
    (∀ p ∈ ties, p.1 = p.2 ∧ p.2.isNullish = false) →
      compareRow greater (ties ++ rest) = compareRow greater rest
  | [], _, _ => rfl
  | (a, b) :: ties, rest, h => by
      rw [forall_mem_cons] at h
      obtain ⟨⟨heq, hpresent⟩, hties⟩ := h
      dsimp only at heq hpresent
      subst heq
      rw [cons_append, compareRow, hpresent, Bool.or_self, if_neg Bool.false_ne_true,
        if_pos rfl]
      exact compareRow_ties rest hties

theorem orderLe_ties {d : DialectName} {r s : SqlRow} : ∀ {ties : List (String × SortDir)}
    (rest : List (String × SortDir)), (∀ e ∈ ties, r e.1 = s e.1) →
      orderLe d (ties ++ rest) r s = orderLe d rest r s
  | [], _, _ => rfl
  | (c, dir) :: ties, rest, h => by
      rw [forall_mem_cons] at h
      rw [cons_append, orderLe_cons, if_pos (congrArg (sortKey d) h.1)]
      exact orderLe_ties rest h.2

/-! ### Tables of words, listed by everyone -/

/-- An entity that everyone may list. -/
def listedEntity (table : TableDef) : EntityDefinition where
  name := table.name
  table := table
  access := .ofList [("list", .rule .isPublic)]
  tenantScoped := false
  tenantColumn := none
  beforeCreate := none
  beforeUpdate := none

/-- Pages of one row. -/
def onePerPage (orderBy : Option (Record SortDir)) : ListOptions := ⟨none, orderBy, some 1, none⟩

/-- Every column holds texts. -/
def asText : ReadText := fun _ s => .str s

def wordRow (words : String → String) : SqlRow := fun c => .str (words c)

section

variable {b : Backend} {table : TableDef} {orderBy : Option (Record SortDir)}

theorem served_listed (hknown : (requestedOrder orderBy).all
      (fun o => (sqlColumns table).contains o.1) = true) (store : Store) :
    ∃ f, Served b (listedEntity table) noOptions (requestBy "u1") (onePerPage orderBy) store f 1 ∧
      ∀ row, filterMatches b.engine none (some f) row = true := by
  have hwhere : listWhere (listedEntity table) noOptions (requestBy "u1") none store
      = some .empty := rfl
  have hfilter : whereFilter .empty = .ok (fieldsOnly []) := by
    unfold whereFilter Record.empty
    rw [toFilter, toParts]
    rfl
  have hall : allEntries (fieldsOnly []) = [] := by
    unfold fieldsOnly
    simp [allEntries, allEntriesList, allEntriesNot, Record.ofList, Record.insertAll,
      Record.empty]
  have hmatches : ∀ row, filterMatches b.engine none (some (fieldsOnly [])) row = true := by
    intro row
    have hvalue := @filterValue_of_empty none (fieldsOnly []) (by simp [fieldsOnly, wellFormed,
      wellFormedList, wellFormedNot]) (by simp [fieldsOnly, whereCondition_some,
      filterConditions, Record.ofList, Record.insertAll, Record.empty]; rfl)
      (sqlAtom b.engine row)
    show (filterValue _ _ == .yes) = true
    rw [hvalue]
    rfl
  refine ⟨fieldsOnly [], ⟨rfl, ?_, ⟨?_, ?_, ?_⟩, hknown, ?_, Nat.one_pos⟩, hmatches⟩
  · show optionalFilter (listWhere (listedEntity table) noOptions (requestBy "u1") none store) = _
    rw [hwhere, optionalFilter, hfilter]
    rfl
  · intro e he
    rw [hall] at he
    cases he
  · intro e he
    rw [hall] at he
    cases he
  · simp [fieldsOnly, wellFormed, wellFormedList, wellFormedNot]
  · show max 0 (1 : ℚ) = ((1 : ℕ) : ℚ)
    rw [max_eq_right zero_le_one, Nat.cast_one]

theorem keyText_word {words : String → String} (h : ∀ c, shortWord (words c) = true)
    (col : String) : shortWord (keyText table (wordRow words) col) = true := by
  rw [keyText_eq]
  cases returnedColumn table col with
  | none =>
    show shortWord "undefined" = true
    decide
  | some c => exact h c

/-! ### Columns read from another column -/

/-- A text that comes behind `"m"` and `"undefined"` in a direction. -/
def farthest : SortDir → String
  | .asc => "z"
  | .desc => "a"

theorem compareRow_farthest {dir : SortDir} {sent : String}
    (hsent : sent = "m" ∨ sent = "undefined") (rest : List (Js × Js)) :
    compareRow (dir != .desc) ((.str (farthest dir), .str sent) :: rest) = .yes := by
  have hne : Js.str (farthest dir) ≠ .str sent := by
    intro heq
    cases heq
    rcases hsent with h | h <;> cases dir <;> exact absurd h (by decide)
  rw [compareRow_differ rfl rfl hne]
  rcases hsent with rfl | rfl <;> cases dir <;> decide

/-- A listing that compares a column with the value of another one is
not complete. -/
theorem not_complete_of_unreturned (hjson : ParsesCursors b table) (hfit : ShortKeysFit table)
    (hknown : (requestedOrder orderBy).all (fun o => (sqlColumns table).contains o.1) = true)
    (h : ¬ ∀ c ∈ namedColumns table, returnedColumn table c.2 = some (camelToSnake c.1 none)) :
    ¬ EveryListComplete b table orderBy := by
  obtain ⟨pre, c, post, hcols, hpre, hc⟩ := exists_first_failure h
  let dir := cursorDir table orderBy
  let words : String → String := fun col => if col = camelToSnake c.1 none then farthest dir else "m"
  let row := wordRow words
  have hwords : ∀ col, shortWord (words col) = true := by
    intro col
    show shortWord (if col = camelToSnake c.1 none then farthest dir else "m") = true
    split
    · cases dir <;> decide
    · decide
  have hsent : Sent table row := hfit row fun col _ => keyText_word hwords col
  -- the cursor behind the row admits the row itself
  have hself : admitsBehind asText table orderBy row row = true := by
    have hties : ∀ p ∈ pre.map fun c => (row (camelToSnake c.1 none), sentValue asText table row c),
        p.1 = p.2 ∧ p.2.isNullish = false := by
      intro p hp
      obtain ⟨c', hc', rfl⟩ := mem_map.mp hp
      have hvalue : sentValue asText table row c' = row (camelToSnake c'.1 none) := by
        unfold sentValue
        rw [keyText_eq, hpre c' hc']
        rfl
      exact ⟨hvalue.symm, rfl⟩
    have hforeign : ∃ sent, sentValue asText table row c = .str sent ∧
        (sent = "m" ∨ sent = "undefined") := by
      unfold sentValue
      rw [keyText_eq]
      cases hret : returnedColumn table c.2 with
      | none => exact ⟨"undefined", rfl, .inr rfl⟩
      | some c' =>
        have hne : ¬ c' = camelToSnake c.1 none := by
          rintro rfl
          exact hc hret
        have hm : words c' = "m" := if_neg hne
        exact ⟨words c', rfl, .inl hm⟩
    obtain ⟨sent, hvalue, hsentWord⟩ := hforeign
    have hrow : row (camelToSnake c.1 none) = .str (farthest dir) :=
      congrArg Js.str (if_pos rfl)
    unfold admitsBehind
    rw [hcols, List.map_append, compareRow_ties _ hties, List.map_cons, hvalue, hrow,
      compareRow_farthest hsentWord]
    rfl
  intro hevery
  obtain ⟨f, hserved, hmatches⟩ := @served_listed b table orderBy hknown fun _ => [row]
  have hmatched : matched b table f (fun _ => [row]) = [row] :=
    filter_eq_self.mpr fun r _ => hmatches r
  have hfirst : pageFrom b asText (listedEntity table) noOptions (requestBy "u1")
      (onePerPage orderBy) (fun _ => [row]) none = some ([row], some (rowCursor table row)) := by
    have hpage := @pageFrom_first b asText _ _ _ _ _ _ _ hserved
    have hentity : (listedEntity table).table = table := rfl
    rw [hentity, hmatched, mergeSort_singleton] at hpage
    exact hpage
  -- behind it, the page is refused or the same
  have hstuck : pageFrom b asText (listedEntity table) noOptions (requestBy "u1")
        (onePerPage orderBy) (fun _ => [row]) (some (rowCursor table row)) = none ∨
      ∃ rows, pageFrom b asText (listedEntity table) noOptions (requestBy "u1")
        (onePerPage orderBy) (fun _ => [row]) (some (rowCursor table row))
          = some (rows, some (rowCursor table row)) := by
    cases hpage : pageFrom b asText (listedEntity table) noOptions (requestBy "u1")
        (onePerPage orderBy) (fun _ => [row]) (some (rowCursor table row)) with
    | none => exact .inl rfl
    | some page =>
      have hcolumns : (cursorKeys table).all (sqlColumns table).contains = true :=
        cursorKeys_known_of_page hjson hsent hpage
      have hbehind := @pageFrom_behind b asText _ _ _ _ _ _ _ hserved hjson _ hsent hcolumns
      have hentity : (listedEntity table).table = table := rfl
      have horder : (onePerPage orderBy).orderBy = orderBy := rfl
      rw [hentity, hmatched, horder, filter_cons, if_pos hself, filter_nil,
        mergeSort_singleton, hpage] at hbehind
      exact .inr ⟨[row], hbehind⟩
  have hkeyed : KeyedRows asText table [row] :=
    ⟨fun r hr col _ => by
        rw [mem_singleton.mp hr]
        rfl,
      fun r hr col _ => by
        rw [mem_singleton.mp hr]
        rfl,
      pairwise_singleton _ _⟩
  obtain ⟨rows, hreads, -, -, -⟩ := hevery asText (listedEntity table) noOptions (requestBy "u1")
    (onePerPage orderBy) (fun _ => [row]) rfl rfl
    (by
      rw [hserved.limit]
      exact_mod_cast hserved.positive)
    ⟨_, hfirst⟩ hkeyed (fun r hr => by
      have hmem := (visibleRow_iff hserved r).mp hr
      have hentity : (listedEntity table).table = table := rfl
      rw [hentity, hmatched] at hmem
      rw [mem_singleton.mp hmem]
      exact hsent)
  cases hreads with
  | last hpage =>
    rw [hfirst] at hpage
    cases hpage
  | more hpage hrest =>
    rw [hfirst] at hpage
    cases hpage
    exact not_reads_of_stuck hstuck hrest

/-- Everyone sees every row of the table. -/
theorem visible_listed (hknown : (requestedOrder orderBy).all
      (fun o => (sqlColumns table).contains o.1) = true) (rows : List SqlRow) (row : SqlRow) :
    VisibleRow b (listedEntity table) noOptions (requestBy "u1") (onePerPage orderBy)
      (fun _ => rows) row ↔ row ∈ rows := by
  obtain ⟨f, hserved, hmatches⟩ := @served_listed b table orderBy hknown fun _ => rows
  have hmatched : matched b (listedEntity table).table f (fun _ => rows) = rows :=
    filter_eq_self.mpr fun r _ => hmatches r
  rw [visibleRow_iff hserved, hmatched]

/-- Of two rows in this order, the second is never reached when the cursor
behind the first admits neither. -/
theorem second_unreached {readText : ReadText} {x y : SqlRow} (hjson : ParsesCursors b table)
    (hknown : (requestedOrder orderBy).all (fun o => (sqlColumns table).contains o.1) = true)
    (hkeys : (cursorKeys table).all (sqlColumns table).contains = true) (hsent : Sent table x)
    (hne : x ≠ y) (hle : orderLe b.engine.dialect (requestedOrder orderBy) x y = true)
    (hx : ¬ admitsBehind readText table orderBy x x = true)
    (hy : ¬ admitsBehind readText table orderBy x y = true) :
    ListAccepted b readText (listedEntity table) noOptions (requestBy "u1") (onePerPage orderBy)
        (fun _ => [x, y]) ∧
      ¬ ListsAll b readText (listedEntity table) noOptions (requestBy "u1") (onePerPage orderBy)
        (fun _ => [x, y]) := by
  obtain ⟨f, hserved, hmatches⟩ := @served_listed b table orderBy hknown fun _ => [x, y]
  have hentity : (listedEntity table).table = table := rfl
  have hrequested : (onePerPage orderBy).orderBy = orderBy := rfl
  have hmatched : matched b table f (fun _ => [x, y]) = [x, y] :=
    filter_eq_self.mpr fun r _ => hmatches r
  have hsorted : [x, y].mergeSort (orderLe b.engine.dialect (requestedOrder orderBy)) = [x, y] :=
    mergeSort_of_pairwise (pairwise_pair.mpr hle)
  have hfirst : pageFrom b readText (listedEntity table) noOptions (requestBy "u1")
      (onePerPage orderBy) (fun _ => [x, y]) none = some ([x], some (rowCursor table x)) := by
    have hpage := @pageFrom_first b readText _ _ _ _ _ _ _ hserved
    rw [hentity, hmatched, hrequested, hsorted] at hpage
    exact hpage
  have hbehind : pageFrom b readText (listedEntity table) noOptions (requestBy "u1")
      (onePerPage orderBy) (fun _ => [x, y]) (some (rowCursor table x)) = some ([], none) := by
    have hpage := @pageFrom_behind b readText _ _ _ _ _ _ _ hserved hjson _ hsent hkeys
    rw [hentity, hmatched, hrequested, filter_cons, if_neg hx, filter_cons, if_neg hy,
      filter_nil, mergeSort_nil] at hpage
    exact hpage
  refine ⟨⟨_, hfirst⟩, ?_⟩
  rintro ⟨rows, hreads, -, hall, -⟩
  have honly : rows = [x] := by
    cases hreads with
    | last hpage =>
      rw [hfirst] at hpage
      cases hpage
    | more hpage hrest =>
      rw [hfirst] at hpage
      cases hpage
      cases hrest with
      | last hlast =>
        rw [hbehind] at hlast
        cases hlast
        rfl
      | more hmore _ =>
        rw [hbehind] at hmore
        cases hmore
  have hyin : y ∈ rows := (hall y).mpr ((visible_listed hknown [x, y] y).mpr (by simp))
  rw [honly, mem_singleton] at hyin
  exact hne hyin.symm

/-! ### Orders that part from the compared columns -/

/-- The first of two texts in a direction. -/
def earlier : SortDir → String
  | .asc => "a"
  | .desc => "b"

def later : SortDir → String
  | .asc => "b"
  | .desc => "a"

theorem earlier_eq_later {d dir : SortDir} (h : d ≠ dir) : earlier d = later dir := by
  cases d <;> cases dir <;> first | rfl | exact absurd rfl h

theorem earlier_sorts (dir : SortDir) (dialect : DialectName) :
    sortKey dialect (.str (earlier dir)) ≠ sortKey dialect (.str (later dir)) ∧
      sortsBefore dir (sortKey dialect (.str (earlier dir)))
        (sortKey dialect (.str (later dir))) = true := by
  have hne : Js.str (earlier dir) ≠ .str (later dir) := by
    intro heq
    cases dir <;> exact absurd (Js.str.inj heq) (by decide)
  refine ⟨fun heq => hne ((sortKey_eq_iff dialect rfl rfl).mp heq), ?_⟩
  cases dir with
  | asc =>
    rw [sortsBefore, decide_eq_true_eq]
    exact (sortKey_lt_iff dialect rfl rfl).mpr (by decide)
  | desc =>
    rw [sortsBefore, decide_eq_true_eq]
    exact (sortKey_lt_iff dialect rfl rfl).mpr (by decide)

theorem compareRow_earlier (dir : SortDir) (rest : List (Js × Js)) :
    compareRow (dir != .desc) ((.str (earlier dir), .str (later dir)) :: rest) ≠ .yes := by
  have hne : Js.str (earlier dir) ≠ .str (later dir) := by
    intro heq
    cases dir <;> exact absurd (Js.str.inj heq) (by decide)
  rw [compareRow_differ rfl rfl hne]
  cases dir <;> decide

/-- A row that holds one word in the column `key`, another in the column
`split`, and `"m"` in every other. -/
def partedRow (key split keyWord splitWord : String) : SqlRow :=
  wordRow fun col => if col = key then keyWord else if col = split then splitWord else "m"

theorem partedRow_key (key split keyWord splitWord : String) :
    partedRow key split keyWord splitWord key = .str keyWord :=
  congrArg Js.str (if_pos rfl)

theorem partedRow_split {key split keyWord splitWord : String}
    (h : split = key → splitWord = keyWord) :
    partedRow key split keyWord splitWord split = .str splitWord := by
  by_cases heq : split = key
  · rw [h heq, heq]
    exact partedRow_key key key keyWord keyWord
  · exact congrArg Js.str ((if_neg heq).trans (if_pos rfl))

theorem partedRow_other {key split keyWord splitWord col : String} (hkey : col ≠ key)
    (hsplit : col ≠ split) : partedRow key split keyWord splitWord col = .str "m" :=
  congrArg Js.str ((if_neg hkey).trans (if_neg hsplit))

theorem partedRow_sent (hfit : ShortKeysFit table) (key split : String)
    {keyWord splitWord : String} (hkey : shortWord keyWord = true)
    (hsplit : shortWord splitWord = true) :
    Sent table (partedRow key split keyWord splitWord) := by
  have hwords : ∀ col, shortWord
      (if col = key then keyWord else if col = split then splitWord else "m") = true := by
    intro col
    split_ifs
    · exact hkey
    · exact hsplit
    · decide
  exact hfit _ fun col _ => keyText_word hwords col

theorem shortWord_earlier (dir : SortDir) : shortWord (earlier dir) = true := by
  cases dir <;> decide

theorem shortWord_later (dir : SortDir) : shortWord (later dir) = true := by
  cases dir <;> decide

/-- A listing whose order does not begin with its compared columns is not
complete. -/
theorem not_complete_of_unled (hjson : ParsesCursors b table) (hfit : ShortKeysFit table)
    (hknown : (requestedOrder orderBy).all (fun o => (sqlColumns table).contains o.1) = true)
    (hreturned : ∀ c ∈ namedColumns table,
      returnedColumn table c.2 = some (camelToSnake c.1 none))
    (h : ¬ firstColumns [] (directedKeys table orderBy)
      <+: firstColumns [] (requestedOrder orderBy)) :
    ¬ EveryListComplete b table orderBy := by
  obtain ⟨pre, ⟨key, dir⟩, post, hkeys, hpart⟩ := exists_parting h
  have hmem : (key, dir) ∈ directedKeys table orderBy := by
    refine @mem_firstColumns _ _ [] ?_
    rw [hkeys]
    exact mem_append_right _ mem_cons_self
  obtain ⟨hkeyColumn, hdir⟩ : key ∈ cursorKeys table ∧ dir = cursorDir table orderBy := by
    obtain ⟨c, hc, heq⟩ := mem_map.mp hmem
    cases heq
    exact ⟨hc, rfl⟩
  -- the column and direction of the order at the parting; the key itself when there is none
  obtain ⟨split, d, hsplitKey, hsplitPre, horder⟩ : ∃ split d,
      (split = key → earlier d = later dir ∧ later d = earlier dir) ∧
        (∀ e ∈ pre, e.1 ≠ split) ∧
        ∀ r s : SqlRow, (∀ e ∈ pre, r e.1 = s e.1) → r split = .str (earlier d) →
          s split = .str (later d) →
            orderLe b.engine.dialect (requestedOrder orderBy) r s = true := by
    have hbegins : ∀ r s : SqlRow, orderLe b.engine.dialect (requestedOrder orderBy) r s
        = orderLe b.engine.dialect (firstColumns [] (requestedOrder orderBy)) r s := fun r s =>
      (orderLe_firstColumns _ [] fun c hc => absurd hc not_mem_nil).symm
    rcases hpart with hend | ⟨⟨split, d⟩, rest, hrest, hne⟩
    · obtain ⟨e, he⟩ : ∃ e : SortDir, e ≠ dir := by
        cases dir
        · exact ⟨.desc, by decide⟩
        · exact ⟨.asc, by decide⟩
      refine ⟨key, e, fun _ => ⟨earlier_eq_later he, (earlier_eq_later he.symm).symm⟩, ?_, ?_⟩
      · have hfresh := (firstColumns_fresh (directedKeys table orderBy) []).1
        rw [hkeys, List.map_append, List.map_cons] at hfresh
        intro e' he' heq
        exact (disjoint_of_nodup_append hfresh) (mem_map.mpr ⟨e', he', heq⟩)
          mem_cons_self
      · intro r s hpre _ _
        rw [hbegins, hend]
        have hnil := orderLe_ties (d := b.engine.dialect) [] hpre
        rw [append_nil] at hnil
        rw [hnil]
        rfl
    · refine ⟨split, d, ?_, ?_, ?_⟩
      · rintro rfl
        have hd : d ≠ dir := fun heq => hne (by rw [heq])
        exact ⟨earlier_eq_later hd, (earlier_eq_later hd.symm).symm⟩
      · have hfresh := (firstColumns_fresh (requestedOrder orderBy) []).1
        rw [hrest, List.map_append, List.map_cons] at hfresh
        intro e' he' heq
        exact (disjoint_of_nodup_append hfresh) (mem_map.mpr ⟨e', he', heq⟩)
          mem_cons_self
      · intro r s hpre hr hs
        obtain ⟨hdiffer, hbefore⟩ := earlier_sorts d b.engine.dialect
        rw [hbegins, hrest, orderLe_ties _ hpre, orderLe_cons, hr, hs, if_neg hdiffer]
        exact hbefore
  have hkeyPre : ∀ e ∈ pre, e.1 ≠ key := by
    have hfresh := (firstColumns_fresh (directedKeys table orderBy) []).1
    rw [hkeys, List.map_append, List.map_cons] at hfresh
    intro e he heq
    exact (disjoint_of_nodup_append hfresh) (mem_map.mpr ⟨e, he, heq⟩)
      mem_cons_self
  -- the second row is earlier by the key and later by the order
  obtain ⟨x, hx⟩ : ∃ x, x = partedRow key split (later dir) (earlier d) := ⟨_, rfl⟩
  obtain ⟨y, hy⟩ : ∃ y, y = partedRow key split (earlier dir) (later d) := ⟨_, rfl⟩
  have hxkey : x key = .str (later dir) := by
    rw [hx]
    exact partedRow_key key split _ _
  have hykey : y key = .str (earlier dir) := by
    rw [hy]
    exact partedRow_key key split _ _
  have hxsplit : x split = .str (earlier d) := by
    rw [hx]
    exact partedRow_split fun heq => (hsplitKey heq).1
  have hysplit : y split = .str (later d) := by
    rw [hy]
    exact partedRow_split fun heq => (hsplitKey heq).2
  have hpreTies : ∀ e ∈ pre, x e.1 = y e.1 := by
    intro e he
    rw [hx, hy, partedRow_other (hkeyPre e he) (hsplitPre e he),
      partedRow_other (hkeyPre e he) (hsplitPre e he)]
  have hsentX : Sent table x := by
    rw [hx]
    exact partedRow_sent hfit key split (shortWord_later dir) (shortWord_earlier d)
  have hsentY : Sent table y := by
    rw [hy]
    exact partedRow_sent hfit key split (shortWord_earlier dir) (shortWord_later d)
  have hkeyed : KeyedRows asText table [x, y] := by
    refine ⟨fun r hr col _ => ?_, fun r hr col _ => ?_, ?_⟩
    · rw [mem_cons, mem_singleton] at hr
      rcases hr with rfl | rfl
      · rw [hx]
        rfl
      · rw [hy]
        rfl
    · rw [mem_cons, mem_singleton] at hr
      rcases hr with rfl | rfl
      · rw [hx]
        rfl
      · rw [hy]
        rfl
    · rw [pairwise_pair]
      obtain ⟨col, hcol, heq⟩ := (mem_cursorKeys_iff hreturned key).mp hkeyColumn
      refine ⟨col, hcol, ?_⟩
      rw [heq, hxkey, hykey]
      intro hsame
      cases dir <;> exact absurd (Js.str.inj hsame) (by decide)
  -- behind the first row the cursor admits neither
  have hadmits : ∀ z, (∀ e ∈ pre, z e.1 = x e.1) → z key = .str (earlier dir) ∨ z = x →
      ¬ admitsBehind asText table orderBy x z = true := by
    intro z hties hz
    have hpresent : ∀ c ∈ cursorKeys table, (x c).isNullish = false := by
      intro c _
      rw [hx]
      rfl
    rw [admitsBehind_returned hreturned hkeyed mem_cons_self,
      compareRow_directedKeys orderBy hpresent, beq_iff_eq]
    rcases hz with hz | rfl
    · have hprePairs : ∀ p ∈ pre.map fun e => (z e.1, x e.1),
          p.1 = p.2 ∧ p.2.isNullish = false := by
        intro p hp
        obtain ⟨e, he, rfl⟩ := mem_map.mp hp
        refine ⟨hties e he, ?_⟩
        rw [hx]
        rfl
      rw [hkeys, List.map_append, compareRow_ties _ hprePairs, List.map_cons, hz, hxkey, ← hdir]
      exact compareRow_earlier dir _
    · have hself := compareRow_self (cursorDir table orderBy != .desc) z
        ((firstColumns [] (directedKeys table orderBy)).map Prod.fst)
      rw [map_map] at hself
      exact hself
  have hne : x ≠ y := by
    intro heq
    rw [heq, hykey] at hxkey
    cases dir <;> exact absurd (Js.str.inj hxkey) (by decide)
  obtain ⟨haccepted, hmissed⟩ := second_unreached hjson hknown (cursorKeys_known hreturned) hsentX
    hne (horder x y hpreTies hxsplit hysplit) (hadmits x (fun e _ => rfl) (.inr rfl))
    (hadmits y (fun e he => (hpreTies e he).symm) (.inl hykey))
  have hpositive : 0 < listLimit (onePerPage orderBy) := by
    show 0 < max 0 (1 : ℚ)
    exact lt_max_of_lt_right zero_lt_one
  refine fun hevery => hmissed (hevery asText (listedEntity table) noOptions (requestBy "u1")
    (onePerPage orderBy) (fun _ => [x, y]) rfl rfl hpositive haccepted hkeyed fun r hr => ?_)
  have hin := (visible_listed hknown [x, y] r).mp hr
  rw [mem_cons, mem_singleton] at hin
  rcases hin with rfl | rfl
  · exact hsentX
  · exact hsentY

/-! ### Cursors that are not sent -/

/-- A visible row whose cursor is dropped or refused keeps some page size
from being complete. -/
theorem not_listsAll_of_lost {readText : ReadText} {entity : EntityDefinition}
    {options : CrudPipelineOptions} {ctx : BaseContext} {opts : ListOptions} {store : Store}
    (hpos : 0 < listLimit opts)
    (haccepted : ListAccepted b readText entity options ctx opts store) {row : SqlRow}
    (hvisible : VisibleRow b entity options ctx opts store row) (hlost : Lost b entity.table row) :
    ∃ limit : ℕ, 0 < limit ∧
      ¬ ListsAll b readText entity options ctx { opts with limit := some (limit : ℚ) } store := by
  obtain ⟨f, n, hserved⟩ := served_of_accepted haccepted hpos
  have hsorted : row ∈ (matched b entity.table f store).mergeSort
      (orderLe b.engine.dialect (requestedOrder opts.orderBy)) :=
    mem_mergeSort.mpr ((visibleRow_iff hserved row).mp hvisible)
  obtain ⟨front, back, hsplit⟩ := append_of_mem hsorted
  -- the row ends the first page
  refine ⟨front.length + 1, Nat.succ_pos _, ?_⟩
  have hserved' : Served b entity options ctx
      { opts with limit := some ((front.length + 1 : ℕ) : ℚ) } store f (front.length + 1) := by
    refine ⟨hserved.access, hserved.filter, hserved.accepted, hserved.order, ?_, Nat.succ_pos _⟩
    show max 0 (((front.length + 1 : ℕ) : ℚ)) = _
    exact max_eq_right (Nat.cast_nonneg _)
  have hfirst : pageFrom b readText entity options ctx
      { opts with limit := some ((front.length + 1 : ℕ) : ℚ) } store none
        = some (front ++ [row], some (rowCursor entity.table row)) := by
    have hpage := @pageFrom_first b readText _ _ _ _ _ _ _ hserved'
    rw [hpage]
    show some (stretch _ _ ((matched b entity.table f store).mergeSort
      (orderLe b.engine.dialect (requestedOrder opts.orderBy)))) = _
    have htake : (front ++ row :: back).take (front.length + 1) = front ++ [row] := by
      rw [take_length_add_append]
      rfl
    rw [hsplit, stretch, htake, if_pos (by simp), getLast?_concat]
    rfl
  have hstuck : pageFrom b readText entity options ctx
        { opts with limit := some ((front.length + 1 : ℕ) : ℚ) } store
          (some (rowCursor entity.table row)) = none ∨
      ∃ rows, pageFrom b readText entity options ctx
        { opts with limit := some ((front.length + 1 : ℕ) : ℚ) } store
          (some (rowCursor entity.table row)) = some (rows, some (rowCursor entity.table row)) := by
    by_cases hkept : rowCursor entity.table row ≠ "" ∧
        jsLength (rowCursor entity.table row) ≤ MAX_CURSOR_LENGTH
    · -- an object the adapter cannot parse
      have hrefused : (rowCursor entity.table row).toList.head? = some '\x7b' ∧
          b.parseCursor (rowCursor entity.table row) = none := by
        rcases hlost with hempty | hlong | hrefused
        · exact absurd hempty hkept.1
        · exact absurd hkept.2 (by omega)
        · exact hrefused
      refine .inl ?_
      cases hpage : pageFrom b readText entity options ctx
          { opts with limit := some ((front.length + 1 : ℕ) : ℚ) } store
            (some (rowCursor entity.table row)) with
      | none => rfl
      | some page =>
        obtain ⟨-, cursor, f', rows, hcursor, -, -⟩ := pageFrom_some hpage
        have hafter : listAfter { opts with
            limit := some ((front.length + 1 : ℕ) : ℚ), after := some (rowCursor entity.table row) }
            = some (rowCursor entity.table row) := by
          unfold listAfter
          rw [Option.filter_some, if_pos (by simpa using hkept)]
        have hnone : optionalCursor b (some (rowCursor entity.table row))
            = .error "SyntaxError: invalid cursor" := by
          unfold optionalCursor cursorOf
          split
          · rename_i h
            cases h
          · rename_i h
            exact absurd (Option.some.inj h) hkept.1
          · rename_i h
            rw [← Option.some.inj h, if_pos hrefused.1, hrefused.2]
            rfl
        have hcursor' : optionalCursor b (some (rowCursor entity.table row)) = .ok cursor :=
          (congrArg (optionalCursor b) hafter).symm.trans hcursor
        rw [hnone] at hcursor'
        cases hcursor'
    · -- without its cursor the request is the first one again
      have hdropped : listAfter { opts with
          limit := some ((front.length + 1 : ℕ) : ℚ), after := some (rowCursor entity.table row) }
          = none := by
        unfold listAfter
        rw [Option.filter_some, if_neg (by simpa using hkept)]
      have hsame : pageFrom b readText entity options ctx
          { opts with limit := some ((front.length + 1 : ℕ) : ℚ) } store
            (some (rowCursor entity.table row))
          = pageFrom b readText entity options ctx
            { opts with limit := some ((front.length + 1 : ℕ) : ℚ) } store none := by
        unfold pageFrom listPage listQuery
        rw [hdropped]
        rfl
      exact .inr ⟨front ++ [row], hsame.trans hfirst⟩
  rintro ⟨rows, hreads, -, -, -⟩
  cases hreads with
  | last hpage =>
    rw [hfirst] at hpage
    cases hpage
  | more hpage hrest =>
    rw [hfirst] at hpage
    cases hpage
    exact not_reads_of_stuck hstuck hrest

end

/-! ### When listings are complete -/

theorem jsLength_le (s : String) : jsLength s ≤ 2 * s.length := by
  have hsum : ∀ cs : List Char,
      (cs.map fun c : Char => if c.val > 0xFFFF then 2 else 1).sum ≤ 2 * cs.length := by
    intro cs
    induction cs with
    | nil => exact le_rfl
    | cons c cs ih =>
      rw [map_cons, sum_cons, length_cons]
      split <;> omega
  unfold jsLength
  exact hsum s.toList

/-- A short key of one column always fits. -/
theorem shortKeysFit_single {table : TableDef} (h : isCompositePk table = false) :
    ShortKeysFit table := by
  intro row hshort
  have hpk : (resolvePkColumns table).headD "id" ∈ resolvePkColumns table := by
    cases hcols : resolvePkColumns table with
    | nil =>
      unfold resolvePkColumns at hcols
      split at hcols
      · cases hcols
      · rename_i hempty
        rw [hcols] at hempty
        exact absurd rfl hempty
    | cons col cols => exact mem_cons_self
  have htext : rowCursor table row = keyText table row ((resolvePkColumns table).headD "id") := by
    unfold rowCursor
    dsimp only
    rw [if_neg (by rw [h]; decide)]
  have hword := hshort _ hpk
  rw [← htext, shortWord, Bool.and_eq_true, Bool.and_eq_true, bne_iff_ne, decide_eq_true_eq] at hword
  obtain ⟨⟨hne, hlength⟩, hlower⟩ := hword
  refine ⟨hne, ?_, fun _ hhead => ?_⟩
  · have hle := jsLength_le (rowCursor table row)
    unfold MAX_CURSOR_LENGTH
    omega
  · have hmem := mem_of_mem_head? hhead
    have hbrace : isLower '\x7b' = true := all_eq_true.mp hlower _ hmem
    exact absurd hbrace (by decide)

/-- Tasks by `id`, with the time they were created at. -/
def tasks : TableDef where
  name := "tasks"
  columns := .ofList [("id", .plain "text"), ("createdAt", .plain "integer")]
  primaryKey := some ["id"]

def taskRow (id : String) (createdAt : ℚ) : SqlRow := fun column =>
  if column = "id" then .str id else .num createdAt

theorem parsesCursors_tasks : ParsesCursors plainBackend tasks := by
  intro hcomposite
  exact absurd hcomposite (by decide)

theorem keyedRows_tasks : KeyedRows asText tasks [taskRow "b" 2, taskRow "a" 1] := by
  have hkey : ∀ row ∈ [taskRow "b" 2, taskRow "a" 1], ∀ col ∈ resolvePkColumns tasks,
      ∃ id, row (camelToSnake col none) = .str id := by
    intro row hrow col hcol
    have hid : col = "id" := mem_singleton.mp hcol
    rw [hid]
    rw [mem_cons, mem_singleton] at hrow
    rcases hrow with rfl | rfl
    · exact ⟨"b", rfl⟩
    · exact ⟨"a", rfl⟩
  refine ⟨fun row hrow col hcol => ?_, fun row hrow col hcol => ?_, ?_⟩
  · obtain ⟨id, hid⟩ := hkey row hrow col hcol
    rw [hid]
    rfl
  · obtain ⟨id, hid⟩ := hkey row hrow col hcol
    rw [hid]
    rfl
  · refine pairwise_pair.mpr ⟨"id", by decide, ?_⟩
    intro heq
    have hid : Js.str "b" = .str "a" := heq
    exact absurd (Js.str.inj hid) (by decide)

end Vertz.Proofs
