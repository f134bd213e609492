import Mathlib.Data.List.Nodup

/-!
# `Vertz.Lib.Keyset`: keyset pagination

A reader asks for a page after its last row, and goes on until a page
comes back empty. `page after` is what the source answers, `none` when
it refuses. `Follows page after rows` says that the reader that stands
at `after` finishes and has then read `rows`.

The theorems:

* `follows_split`: when each page is the next stretch of a list, the
  whole list is read.
* `follows_mergeSort`: pages cut from a sorted and filtered table are
  such stretches as soon as the filter admits exactly what comes later.
* `not_mem_of_follows`: a row that no page can contain is never read.

A source can also hand out the token of its next page with each page,
and no token with the last one. `Reads page after rows` is the reader
that sends back the tokens it gets, with `reads_split` and
`reads_mergeSort` as above; `not_reads_of_stuck` is a token that is
refused or leads back to itself.
-/

namespace Vertz.Lib.Keyset

open List

variable {α : Type}

/-- The reader at `after` finishes, having read `rows`. -/
inductive Follows (page : Option α → Option (List α)) : Option α → List α → Prop where
  | done {after : Option α} : page after = some [] → Follows page after []
  | next {after : Option α} {rows rest : List α} {last : α} : page after = some rows →
      rows.getLast? = some last → Follows page (some last) rest → Follows page after (rows ++ rest)

/-- Pages that are the next stretches of a list read the list. -/
theorem follows_split {page : Option α → Option (List α)} {limit : ℕ} (hlimit : 0 < limit)
    {all : List α}
    (h : ∀ pre suf, all = pre ++ suf → page pre.getLast? = some (suf.take limit)) :
    Follows page none all := by
  have key : ∀ n pre suf, suf.length ≤ n → all = pre ++ suf → Follows page pre.getLast? suf := by
    intro n
    induction n with
    | zero =>
      intro pre suf hlen heq
      have hnil : suf = [] := eq_nil_of_length_eq_zero (Nat.le_zero.mp hlen)
      subst hnil
      exact .done ((h pre [] heq).trans (congrArg some take_nil))
    | succ n ih =>
      intro pre suf hlen heq
      cases suf with
      | nil => exact .done ((h pre [] heq).trans (congrArg some take_nil))
      | cons x xs =>
        obtain ⟨m, rfl⟩ : ∃ m, limit = m + 1 := ⟨limit - 1, by omega⟩
        have hpage := h pre (x :: xs) heq
        rw [take_succ_cons] at hpage
        obtain ⟨last, hlast⟩ : ∃ last, (x :: xs.take m).getLast? = some last :=
          ⟨_, getLast?_eq_some_getLast (cons_ne_nil _ _)⟩
        have hsplit : all = (pre ++ (x :: xs.take m)) ++ xs.drop m := by
          rw [append_assoc, cons_append, take_append_drop, heq]
        have hrest : Follows page (some last) (xs.drop m) := by
          have hdrop : (xs.drop m).length ≤ n := by
            rw [length_drop]
            rw [length_cons] at hlen
            omega
          have hih := ih _ _ hdrop hsplit
          rwa [getLast?_append_of_ne_nil _ (cons_ne_nil _ _), hlast] at hih
        have hrows : x :: xs = (x :: xs.take m) ++ xs.drop m := by
          rw [cons_append, take_append_drop]
        rw [hrows]
        exact .next hpage hlast hrest
  exact key all.length [] all (Nat.le_refl _) rfl

section Sorted

variable {le : α → α → Bool}

theorem mem_of_mergeSort_split {matched pre suf : List α} {r : α}
    (hsplit : matched.mergeSort le = pre ++ suf) (hlast : pre.getLast? = some r) : r ∈ matched := by
  refine mem_mergeSort.mp (?_ : r ∈ matched.mergeSort le)
  rw [hsplit]
  exact mem_append_left _ (mem_of_getLast? hlast)

/-- Sorting what a filter leaves of a table is the stretch after a row,
when the filter admits exactly what comes after the row. -/
theorem mergeSort_filter_eq (htrans : ∀ a b c, le a b = true → le b c = true → le a c = true)
    (htotal : ∀ a b, (le a b || le b a) = true) {matched pre suf : List α} {r : α}
    {admits : α → Bool} (hnodup : matched.Nodup)
    (hanti : ∀ a ∈ matched, ∀ b ∈ matched, le a b = true → le b a = true → a = b)
    (hsplit : matched.mergeSort le = pre ++ suf) (hlast : pre.getLast? = some r)
    (hadmits : ∀ x ∈ matched, (admits x = true ↔ le r x = true ∧ r ≠ x)) :
    (matched.filter admits).mergeSort le = suf := by
  have hmem : ∀ x, x ∈ pre ++ suf ↔ x ∈ matched := fun x => by
    rw [← hsplit]
    exact mem_mergeSort
  have hsorted : (pre ++ suf).Pairwise fun a b => le a b = true := by
    rw [← hsplit]
    exact pairwise_mergeSort htrans htotal matched
  have hnd : (pre ++ suf).Nodup := by
    rw [← hsplit]
    exact (mergeSort_perm matched le).nodup_iff.mpr hnodup
  obtain ⟨hpre, hsuf, hcross⟩ := pairwise_append.mp hsorted
  obtain ⟨front, rfl⟩ : ∃ front, pre = front ++ [r] := by
    obtain ⟨front, h⟩ := getLast?_eq_some_iff.mp hlast
    exact ⟨front, h⟩
  have hr : r ∈ matched := (hmem r).mp (by simp)
  -- of the sorted table, the filter leaves exactly the rows behind `r`
  have hfilter : (front ++ [r] ++ suf).filter admits = suf := by
    rw [filter_append]
    have hdrop : (front ++ [r]).filter admits = [] := by
      rw [filter_eq_nil_iff]
      intro x hx hadm
      have hxm : x ∈ matched := (hmem x).mp (mem_append_left _ hx)
      obtain ⟨hle, hne⟩ := (hadmits x hxm).mp hadm
      rcases mem_append.mp hx with hfront | hself
      · have hxr : le x r = true :=
          (pairwise_append.mp hpre).2.2 x hfront r (mem_singleton_self r)
        exact hne (hanti r hr x hxm hle hxr)
      · exact hne (mem_singleton.mp hself).symm
    have hkeep : suf.filter admits = suf := by
      rw [filter_eq_self]
      intro x hx
      have hxm : x ∈ matched := (hmem x).mp (mem_append_right _ hx)
      refine (hadmits x hxm).mpr ⟨hcross r (by simp) x hx, ?_⟩
      rintro rfl
      exact (disjoint_of_nodup_append hnd) (by simp) hx
    rw [hdrop, hkeep, nil_append]
  refine List.Perm.eq_of_pairwise ?_ (pairwise_mergeSort htrans htotal _) hsuf ?_
  · intro a b ha hb
    have ham : a ∈ matched := (mem_filter.mp (mem_mergeSort.mp ha)).1
    have hbm : b ∈ matched := (hmem b).mp (mem_append_right _ hb)
    exact hanti a ham b hbm
  · have hperm : ((matched.filter admits).mergeSort le).Perm
        ((matched.mergeSort le).filter admits) :=
      (mergeSort_perm _ _).trans ((mergeSort_perm matched le).filter admits).symm
    rwa [hsplit, hfilter] at hperm

/-- Pages of a sorted table that admit exactly what comes after the last
row read the table in order. -/
theorem follows_mergeSort (htrans : ∀ a b c, le a b = true → le b c = true → le a c = true)
    (htotal : ∀ a b, (le a b || le b a) = true) {page : Option α → Option (List α)}
    {limit : ℕ} (hlimit : 0 < limit) {matched : List α} {admits : α → α → Bool}
    (hfirst : page none = some ((matched.mergeSort le).take limit))
    (hnext : ∀ r ∈ matched, page (some r)
      = some (((matched.filter (admits r)).mergeSort le).take limit))
    (hnodup : matched.Nodup)
    (hanti : ∀ a ∈ matched, ∀ b ∈ matched, le a b = true → le b a = true → a = b)
    (hadmits : ∀ r ∈ matched, ∀ x ∈ matched,
      (admits r x = true ↔ le r x = true ∧ r ≠ x)) :
    Follows page none (matched.mergeSort le) := by
  refine follows_split hlimit fun pre suf hsplit => ?_
  cases hlast : pre.getLast? with
  | none =>
    rw [getLast?_eq_none_iff] at hlast
    subst hlast
    rw [hfirst, hsplit, nil_append]
  | some r =>
    have hr := mem_of_mergeSort_split hsplit hlast
    rw [hnext r hr, mergeSort_filter_eq htrans htotal hnodup hanti hsplit hlast (hadmits r hr)]

end Sorted

/-- A row that is neither on the first page nor on a page after a row of
the table is never read. -/
theorem not_mem_of_follows {page : Option α → Option (List α)} {z : α} {table : List α}
    (hfirst : ∀ rows, page none = some rows → z ∉ rows ∧ ∀ x ∈ rows, x ∈ table)
    (hnext : ∀ r ∈ table, ∀ rows, page (some r) = some rows →
      z ∉ rows ∧ ∀ x ∈ rows, x ∈ table)
    {rows : List α} (h : Follows page none rows) : z ∉ rows := by
  have key : ∀ {after : Option α} {rows : List α}, Follows page after rows →
      (∀ r, after = some r → r ∈ table) → z ∉ rows := by
    intro after rows h
    induction h with
    | done _ => exact fun _ => not_mem_nil
    | @next after rows rest last hpage hlast _ ih =>
      intro hafter
      have hrows : z ∉ rows ∧ ∀ x ∈ rows, x ∈ table := by
        cases after with
        | none => exact hfirst rows hpage
        | some r => exact hnext r (hafter r rfl) rows hpage
      rw [mem_append, not_or]
      refine ⟨hrows.1, ih fun r hr => ?_⟩
      cases hr
      exact hrows.2 _ (mem_of_getLast? hlast)
  exact key h fun r hr => by cases hr

/-! ### Pages that name the next one -/

section Tokens

variable {κ : Type}

/-- The reader at `after` reaches a page without a token, having read
`rows`. -/
inductive Reads (page : Option κ → Option (List α × Option κ)) : Option κ → List α → Prop where
  | last {after : Option κ} {rows : List α} : page after = some (rows, none) →
      Reads page after rows
  | more {after : Option κ} {rows rest : List α} {next : κ} :
      page after = some (rows, some next) → Reads page (some next) rest →
        Reads page after (rows ++ rest)

/-- The first page of a list, with the token of its last row when it is
full. -/
def stretch (limit : ℕ) (token : α → κ) (xs : List α) : List α × Option κ :=
  (xs.take limit, if limit ≤ xs.length then (xs.take limit).getLast?.map token else none)

variable {page : Option κ → Option (List α × Option κ)} {limit : ℕ} {token : α → κ}

/-- Pages that are the next stretches of a list read the list. -/
theorem reads_split (hlimit : 0 < limit) {all : List α}
    (h : ∀ pre suf, all = pre ++ suf →
      page (pre.getLast?.map token) = some (stretch limit token suf)) :
    Reads page none all := by
  have key : ∀ n pre suf, suf.length ≤ n → all = pre ++ suf →
      Reads page (pre.getLast?.map token) suf := by
    intro n
    induction n with
    | zero =>
      intro pre suf hlen heq
      have hnil : suf = [] := eq_nil_of_length_eq_zero (Nat.le_zero.mp hlen)
      have hpage := h pre suf heq
      have hshort : ¬ limit ≤ suf.length := by
        rw [hnil, length_nil]
        omega
      rw [stretch, if_neg hshort, hnil, take_nil] at hpage
      rw [hnil]
      exact .last hpage
    | succ n ih =>
      intro pre suf hlen heq
      have hpage := h pre suf heq
      by_cases hfull : limit ≤ suf.length
      · have hne : suf.take limit ≠ [] := by
          intro hnil
          have hlength := congrArg List.length hnil
          rw [length_take, length_nil] at hlength
          omega
        obtain ⟨last, hlast⟩ : ∃ last, (suf.take limit).getLast? = some last :=
          ⟨_, getLast?_eq_some_getLast hne⟩
        rw [stretch, if_pos hfull, hlast, Option.map_some] at hpage
        have hsplit : all = (pre ++ suf.take limit) ++ suf.drop limit := by
          rw [append_assoc, take_append_drop, heq]
        have hdrop : (suf.drop limit).length ≤ n := by
          rw [length_drop]
          omega
        have hrest : Reads page (some (token last)) (suf.drop limit) := by
          have hih := ih _ _ hdrop hsplit
          rwa [getLast?_append_of_ne_nil _ hne, hlast, Option.map_some] at hih
        have hread := Reads.more hpage hrest
        rwa [take_append_drop] at hread
      · rw [stretch, if_neg hfull, take_of_length_le (by omega)] at hpage
        exact .last hpage
  exact key all.length [] all (Nat.le_refl _) rfl

/-- Pages of a sorted table that admit exactly what comes after the last
row read the table in order. -/
theorem reads_mergeSort {le : α → α → Bool}
    (htrans : ∀ a b c, le a b = true → le b c = true → le a c = true)
    (htotal : ∀ a b, (le a b || le b a) = true) (hlimit : 0 < limit) {matched : List α}
    {admits : α → α → Bool}
    (hfirst : page none = some (stretch limit token (matched.mergeSort le)))
    (hnext : ∀ r ∈ matched, page (some (token r))
      = some (stretch limit token ((matched.filter (admits r)).mergeSort le)))
    (hnodup : matched.Nodup)
    (hanti : ∀ a ∈ matched, ∀ b ∈ matched, le a b = true → le b a = true → a = b)
    (hadmits : ∀ r ∈ matched, ∀ x ∈ matched,
      (admits r x = true ↔ le r x = true ∧ r ≠ x)) :
    Reads page none (matched.mergeSort le) := by
  have hcut : ∀ pre suf, matched.mergeSort le = pre ++ suf →
      page (pre.getLast?.map token) = some (stretch limit token suf) := by
    intro pre suf hsplit
    cases hlast : pre.getLast? with
    | none =>
      rw [getLast?_eq_none_iff] at hlast
      subst hlast
      rw [Option.map_none, hfirst, hsplit, nil_append]
    | some r =>
      have hr := mem_of_mergeSort_split hsplit hlast
      rw [Option.map_some, hnext r hr,
        mergeSort_filter_eq htrans htotal hnodup hanti hsplit hlast (hadmits r hr)]
  exact reads_split hlimit hcut

/-- A token that is refused or leads back to itself is never read to the
end. -/
theorem not_reads_of_stuck {t : κ}
    (h : page (some t) = none ∨ ∃ rows, page (some t) = some (rows, some t)) {rows : List α} :
    ¬ Reads page (some t) rows := by
  intro hread
  generalize hafter : some t = after at hread
  induction hread with
  | last hpage =>
    subst hafter
    rcases h with hnone | ⟨rows', hloop⟩
    · rw [hnone] at hpage
      cases hpage
    · rw [hloop] at hpage
      cases hpage
  | more hpage _ ih =>
    subst hafter
    rcases h with hnone | ⟨rows', hloop⟩
    · rw [hnone] at hpage
      cases hpage
    · rw [hloop] at hpage
      cases hpage
      exact ih rfl

end Tokens

end Vertz.Lib.Keyset
