import Mathlib.Data.List.Nodup
import Mathlib.Data.List.Perm.Subperm

/-!
# `Vertz.Lib.Placement`: moving elements to their places one by one

`place xs j d` makes `d` the element at position `j`, moving it before
the element that is there, and `placeAll xs j ds` places the elements of
`ds` at `j`, `j + 1` and so on. Both move within a list of distinct
elements, and an element that is not in the list yet is inserted.

`placeAll_region` is what the loop is for: it orders one region of a list
and leaves what is before and after it. It counts positions from a start,
and `placeAll_eq_iff` says from which starts it gets the region right.
-/

namespace Vertz.Lib

open List

variable {α : Type} [DecidableEq α]

/-- `xs` with `d` moved before `ref`, or to the end. -/
def moveBefore (xs : List α) (d : α) : Option α → List α
  | some ref => (xs.erase d).insertIdx ((xs.erase d).idxOf ref) d
  | none => xs.erase d ++ [d]

def place (xs : List α) (j : ℕ) (d : α) : List α :=
  if xs[j]? = some d then xs else moveBefore xs d xs[j]?

def placeAll (xs : List α) (j : ℕ) : List α → List α
  | [] => xs
  | d :: ds => placeAll (place xs j d) (j + 1) ds

section One

variable {xs : List α} {d : α}

omit [DecidableEq α] in
theorem take_append_drop_nodup (hxs : xs.Nodup) (j : ℕ) : (xs.take j ++ xs.drop j).Nodup := by
  rwa [take_append_drop]

theorem erase_append_of_nodup {ys zs : List α} (h : (ys ++ zs).Nodup) (d : α) :
    (ys ++ zs).erase d = ys.erase d ++ zs.erase d := by
  rw [erase_append]
  split
  · next hmem =>
      have hnot : d ∉ zs := fun hz => (nodup_append.mp h).2.2 d hmem d hz rfl
      rw [erase_of_not_mem hnot]
  · next hmem => rw [erase_of_not_mem hmem]

/-- What placing does: `d` goes right behind what was before the
position, and its old occurrence goes. -/
theorem place_eq (hxs : xs.Nodup) (j : ℕ) (d : α) :
    place xs j d = (xs.take j).erase d ++ d :: (xs.drop j).erase d := by
  have hsplit := take_append_drop_nodup hxs j
  have herase : xs.erase d = (xs.take j).erase d ++ (xs.drop j).erase d := by
    rw [← erase_append_of_nodup hsplit, take_append_drop]
  have hget : xs[j]? = (xs.drop j).head? := by rw [head?_drop]
  rw [place, hget]
  cases hdrop : xs.drop j with
  | nil =>
    rw [hdrop, erase_nil, append_nil] at herase
    simp only [head?_nil, reduceCtorEq, if_false, moveBefore, herase, erase_nil]
  | cons c rest =>
    rw [hdrop] at hsplit herase
    have hnot : ∀ x ∈ c :: rest, x ∉ xs.take j := fun x hx hmem =>
      (nodup_append.mp hsplit).2.2 x hmem x hx rfl
    rw [head?_cons]
    by_cases hc : c = d
    · subst hc
      rw [if_pos rfl, erase_cons_head, erase_of_not_mem (hnot c mem_cons_self)]
      rw [← hdrop, take_append_drop]
    · have hcons : (c :: rest).erase d = c :: rest.erase d :=
        erase_cons_tail (by simpa using hc)
      have hidx : c ∉ (xs.take j).erase d := fun h =>
        hnot c mem_cons_self (mem_of_mem_erase h)
      rw [if_neg (fun h => hc (Option.some.inj h)), moveBefore, herase, hcons,
        idxOf_append_of_notMem hidx, idxOf_cons_self, Nat.add_zero]
      generalize (xs.take j).erase d = ys
      induction ys with
      | nil => rfl
      | cons y ys ih => simpa using ih

theorem mem_place (hxs : xs.Nodup) (j : ℕ) (x : α) : x ∈ place xs j d ↔ x = d ∨ x ∈ xs := by
  have hsplit := take_append_drop_nodup hxs j
  rw [place_eq hxs, mem_append, mem_cons]
  by_cases hx : x = d
  · simp [hx]
  · rw [mem_erase_of_ne hx, mem_erase_of_ne hx, or_left_comm, ← mem_append,
      take_append_drop]

theorem nodup_place (hxs : xs.Nodup) (j : ℕ) (d : α) : (place xs j d).Nodup := by
  have hsplit := take_append_drop_nodup hxs j
  have herase : ((xs.take j).erase d ++ (xs.drop j).erase d).Nodup := by
    rw [← erase_append_of_nodup hsplit, take_append_drop]
    exact hxs.erase d
  rw [place_eq hxs, nodup_middle, nodup_cons]
  refine ⟨?_, herase⟩
  rw [← erase_append_of_nodup hsplit, take_append_drop]
  exact hxs.not_mem_erase

theorem filter_erase_of_neg (xs : List α) {q : α → Bool} (hq : q d = false) :
    (xs.erase d).filter q = xs.filter q := by
  induction xs with
  | nil => rfl
  | cons x xs ih =>
    by_cases hx : x = d
    · rw [hx, erase_cons_head, filter_cons_of_neg (by simp [hq])]
    · rw [erase_cons_tail (by simpa using hx), filter_cons, filter_cons, ih]

/-- The other elements keep their order. -/
theorem filter_place (hxs : xs.Nodup) (j : ℕ) {q : α → Bool} (hq : q d = false) :
    (place xs j d).filter q = xs.filter q := by
  rw [place_eq hxs, filter_append, filter_cons_of_neg (by simp [hq]),
    filter_erase_of_neg _ hq, filter_erase_of_neg _ hq, ← filter_append,
    take_append_drop]

theorem place_behind {ys : List α} (h : (ys ++ xs).Nodup) (hd : d ∉ ys) (j : ℕ) :
    place (ys ++ xs) (ys.length + j) d = ys ++ place xs j d := by
  rw [place_eq h, place_eq (nodup_append.mp h).2.1, take_length_add_append,
    drop_length_add_append, erase_append_right _ hd, append_assoc]

theorem place_before {ys : List α} (h : (xs ++ ys).Nodup) (hd : d ∉ ys) {j : ℕ}
    (hj : j ≤ xs.length) : place (xs ++ ys) j d = place xs j d ++ ys := by
  have hdrop : (xs.drop j ++ ys).Nodup := by
    rw [← drop_append_of_le_length hj]
    exact h.sublist (drop_sublist j _)
  rw [place_eq h, place_eq (nodup_append.mp h).1, take_append_of_le_length hj,
    drop_append_of_le_length hj, erase_append_of_nodup hdrop, erase_of_not_mem hd]
  simp

end One

section All

variable {xs ds : List α}

theorem placeAll_concat (xs : List α) (j : ℕ) (ds : List α) (l : α) :
    placeAll xs j (ds ++ [l]) = place (placeAll xs j ds) (j + ds.length) l := by
  induction ds generalizing xs j with
  | nil => rfl
  | cons d ds ih =>
    rw [length_cons, Nat.add_comm ds.length, ← Nat.add_assoc]
    exact ih _ _

theorem nodup_placeAll (hxs : xs.Nodup) (j : ℕ) (ds : List α) : (placeAll xs j ds).Nodup := by
  induction ds generalizing xs j with
  | nil => exact hxs
  | cons d ds ih => exact ih (nodup_place hxs j d) _

theorem mem_placeAll (hxs : xs.Nodup) (j : ℕ) (x : α) :
    x ∈ placeAll xs j ds ↔ x ∈ ds ∨ x ∈ xs := by
  induction ds generalizing xs j with
  | nil => simp [placeAll]
  | cons d ds ih =>
    rw [placeAll, ih (nodup_place hxs j d), mem_place hxs, mem_cons, or_left_comm, or_assoc]

/-- The elements that are not placed keep their order. -/
theorem filter_placeAll (hxs : xs.Nodup) (j : ℕ) {q : α → Bool} (hq : ∀ d ∈ ds, q d = false) :
    (placeAll xs j ds).filter q = xs.filter q := by
  induction ds generalizing xs j with
  | nil => rfl
  | cons d ds ih =>
    rw [placeAll, ih (nodup_place hxs j d) _ fun d' hd' => hq d' (mem_cons_of_mem _ hd'),
      filter_place hxs j (hq d mem_cons_self)]

theorem placeAll_behind {ys : List α} (h : (ys ++ xs).Nodup) (hds : ∀ d ∈ ds, d ∉ ys) (j : ℕ) :
    placeAll (ys ++ xs) (ys.length + j) ds = ys ++ placeAll xs j ds := by
  induction ds generalizing xs j with
  | nil => rfl
  | cons d ds ih =>
    have hd := hds d mem_cons_self
    have hplaced := nodup_place h (ys.length + j) d
    rw [placeAll, placeAll, place_behind h hd]
    rw [place_behind h hd] at hplaced
    exact ih hplaced (fun d' hd' => hds d' (mem_cons_of_mem _ hd')) (j + 1)

/-- Placing never passes a position that the list has not reached, when it
starts at most one place behind the elements placed before, and then the
last element is there from the start. -/
theorem placeAll_before {ys done : List α} {j : ℕ} (h : (xs ++ ys).Nodup)
    (hds : ∀ d ∈ ds, d ∉ ys) (hnodup : (done ++ ds).Nodup) (hdone : done ⊆ xs)
    (hj : ∀ l, ds.getLast? = some l → j ≤ done.length ∨ (j = done.length + 1 ∧ l ∈ xs)) :
    placeAll (xs ++ ys) j ds = placeAll xs j ds ++ ys := by
  induction ds generalizing xs done j with
  | nil => rfl
  | cons d ds ih =>
    have hxs := (nodup_append.mp h).1
    have hlength : j ≤ xs.length := by
      obtain ⟨l, hl⟩ := Option.isSome_iff_exists.mp
        (getLast?_isSome.mpr (cons_ne_nil d ds))
      rcases hj l hl with hle | ⟨heq, hmem⟩
      · have hsub := ((nodup_append.mp hnodup).1.subperm hdone).length_le
        omega
      · have hnot : l ∉ done := fun hl' =>
          (nodup_append.mp hnodup).2.2 l hl' l (mem_of_getLast? hl) rfl
        have hcons : (l :: done).Nodup :=
          nodup_cons.mpr ⟨hnot, (nodup_append.mp hnodup).1⟩
        have hsub := (hcons.subperm (cons_subset.mpr ⟨hmem, hdone⟩)).length_le
        rw [length_cons] at hsub
        omega
    have hd := hds d mem_cons_self
    have hplaced := nodup_place h j d
    rw [placeAll, placeAll, place_before h hd hlength]
    rw [place_before h hd hlength] at hplaced
    refine @ih _ (done ++ [d]) _ hplaced (fun d' hd' => hds d' (mem_cons_of_mem _ hd'))
      (by simpa using hnodup) ?_ ?_
    · intro x hx
      rw [mem_place hxs]
      rcases mem_append.mp hx with hx | hx
      · exact .inr (hdone hx)
      · exact .inl (mem_singleton.mp hx)
    · intro l hl
      have hcons : (d :: ds).getLast? = some l := by
        rw [getLast?_cons, hl]
        rfl
      rw [length_append, length_singleton, mem_place hxs]
      rcases hj l hcons with hle | ⟨heq, hmem⟩
      · exact .inl (by omega)
      · exact .inr ⟨by omega, .inr hmem⟩

/-- The loop over a list that holds nothing else: what was placed is in
order and before every later position. -/
theorem placeAll_done {done : List α} {j : ℕ} (hxs : xs.Nodup) (hnodup : (done ++ ds).Nodup)
    (hsub : xs ⊆ done ++ ds) (hdone : xs.filter (· ∈ done) = done)
    (hdrop : ∀ x ∈ xs.drop j, x ∉ done) : placeAll xs j ds = done ++ ds := by
  induction ds generalizing xs done j with
  | nil =>
    rw [append_nil] at hsub ⊢
    rw [placeAll, ← hdone, filter_eq_self.mpr fun x hx => by simpa using hsub hx]
  | cons d ds ih =>
    have hd : d ∉ done := fun hd =>
      (nodup_append.mp hnodup).2.2 d hd d mem_cons_self rfl
    have happend : done ++ d :: ds = (done ++ [d]) ++ ds := by simp
    rw [placeAll, happend]
    rw [happend] at hnodup hsub
    refine ih (nodup_place hxs j d) hnodup ?_ ?_ ?_
    · intro x hx
      rcases (mem_place hxs j x).mp hx with rfl | hx
      · simp
      · exact hsub hx
    · have hplaced : ∀ ys : List α, ys.Nodup →
          (ys.erase d).filter (· ∈ done ++ [d]) = ys.filter (· ∈ done) := by
        intro ys hys
        rw [← filter_erase_of_neg ys (by simpa using hd)]
        refine filter_congr fun x hx => ?_
        have hne : x ≠ d := fun h => hys.not_mem_erase (h ▸ hx)
        simp [hne]
      have hrest : (xs.drop j).filter (· ∈ done) = [] :=
        filter_eq_nil_iff.mpr fun x hx => by simpa using hdrop x hx
      have htake : (xs.take j).filter (· ∈ done) = done := by
        rw [← append_nil (List.filter _ _), ← hrest, ← filter_append,
          take_append_drop, hdone]
      rw [place_eq hxs, filter_append, filter_cons_of_pos (by simp),
        hplaced _ (hxs.sublist (take_sublist j xs)),
        hplaced _ (hxs.sublist (drop_sublist j xs)), htake, hrest]
    · intro x hx
      have hlength : ((xs.take j).erase d ++ [d]).length ≤ j + 1 := by
        have herase := length_erase_le (l := xs.take j) (a := d)
        have htake := length_take_le j xs
        rw [length_append, length_singleton]
        omega
      rw [place_eq hxs, ← singleton_append, ← append_assoc,
        drop_append, drop_eq_nil_of_le hlength, nil_append] at hx
      have hmem := mem_of_mem_drop hx
      have hne : x ≠ d := fun h =>
        (hxs.sublist (drop_sublist j xs)).not_mem_erase (h ▸ hmem)
      have hnot := hdrop x (mem_of_mem_erase hmem)
      simp [hne, hnot]

/-- A list whose elements are all placed ends up in their order. -/
theorem placeAll_self (hxs : xs.Nodup) (hds : ds.Nodup) (hsub : xs ⊆ ds) (j : ℕ) :
    placeAll xs j ds = ds :=
  @placeAll_done _ _ xs ds [] j hxs hds hsub (by simp) fun _ _ => not_mem_nil

end All

section Region

/-- A region of a list between what is before and after it. The elements
to place are those of the region and new ones. -/
structure IsRegion (before xs after ds : List α) : Prop where
  nodup : (before ++ (xs ++ after)).Nodup
  distinct : ds.Nodup
  subset : xs ⊆ ds
  notBefore : ∀ d ∈ ds, d ∉ before
  notAfter : ∀ d ∈ ds, d ∉ after

/-- The starts from which the loop orders the region: the region's own, a
later one when nothing follows the region, and the next one when the last
element to place is in the region. -/
def InPlace (before xs after ds : List α) (start : ℕ) : Prop :=
  ds = [] ∨ start = before.length ∨
    (before.length < start ∧
      (after = [] ∨ (start = before.length + 1 ∧ ∃ l ∈ ds.getLast?, l ∈ xs)))

variable {before xs after ds : List α} {start : ℕ}

theorem placeAll_region (h : IsRegion before xs after ds)
    (hstart : InPlace before xs after ds start) :
    placeAll (before ++ (xs ++ after)) start ds = before ++ (ds ++ after) := by
  have htail := (nodup_append.mp h.nodup).2.1
  have hxs := (nodup_append.mp htail).1
  rcases hstart with rfl | hstart
  · rw [subset_nil.mp h.subset]
    rfl
  · obtain ⟨j, rfl⟩ : ∃ j, start = before.length + j := by
      refine Nat.exists_eq_add_of_le ?_
      rcases hstart with rfl | ⟨hlt, -⟩
      · exact Nat.le_refl _
      · exact Nat.le_of_lt hlt
    rw [placeAll_behind h.nodup h.notBefore]
    congr 1
    rcases hstart with hj | ⟨-, rfl | ⟨hj, l, hl, hmem⟩⟩
    · rw [placeAll_before htail h.notAfter (by simpa using h.distinct) (nil_subset xs)
        fun l _ => .inl (by simp; omega), placeAll_self hxs h.distinct h.subset]
    · rw [append_nil, append_nil, placeAll_self hxs h.distinct h.subset]
    · have hlast : ∀ l', ds.getLast? = some l' →
          j ≤ ([] : List α).length ∨ (j = ([] : List α).length + 1 ∧ l' ∈ xs) := by
        intro l' hl'
        obtain rfl : l' = l := Option.some.inj (hl'.symm.trans hl)
        exact .inr ⟨by simp; omega, hmem⟩
      rw [placeAll_before htail h.notAfter (by simpa using h.distinct) (nil_subset xs) hlast,
        placeAll_self hxs h.distinct h.subset]

/-- From a start inside what is before the region the first element ends
up there. -/
theorem before_le_start (h : IsRegion before xs after ds) (hne : ds ≠ [])
    (heq : placeAll (before ++ (xs ++ after)) start ds = before ++ (ds ++ after)) :
    before.length ≤ start := by
  by_contra hlt
  rw [Nat.not_le] at hlt
  cases ds with
  | nil => exact hne rfl
  | cons d ds =>
    have hd := h.notBefore d mem_cons_self
    have hnodup := nodup_cons.mp h.distinct
    -- without the elements placed later, `d` is where it was placed first
    let q : α → Bool := fun x => x ∉ ds
    have hkeep : ∀ ys : List α, (∀ x ∈ ds, x ∉ ys) → ys.filter q = ys := fun ys hys =>
      filter_eq_self.mpr fun x hx => by simpa [q] using fun hmem => hys x hmem hx
    have hbefore := hkeep before fun x hx => h.notBefore x (mem_cons_of_mem d hx)
    have hafter := hkeep after fun x hx => h.notAfter x (mem_cons_of_mem d hx)
    have hright : (before ++ (d :: ds ++ after)).filter q = before ++ d :: after := by
      have hds : ds.filter q = [] := filter_eq_nil_iff.mpr fun x hx => by simpa [q] using hx
      rw [filter_append, filter_append,
        filter_cons_of_pos (by simpa [q] using hnodup.1), hds, hbefore, hafter]
      rfl
    have hleft : (placeAll (before ++ (xs ++ after)) start (d :: ds)).filter q =
        before.take start ++ d ::
          (((before ++ (xs ++ after)).drop start).erase d).filter q := by
      have hd' : d ∉ before.take start := fun hmem => hd (mem_of_mem_take hmem)
      have hlater : ∀ x ∈ ds, q x = false := fun x hx => by simpa [q] using hx
      rw [placeAll, filter_placeAll (nodup_place h.nodup start d) _ hlater, place_eq h.nodup,
        take_append_of_le_length (Nat.le_of_lt hlt), erase_of_not_mem hd',
        filter_append,
        filter_cons_of_pos (by simpa [q] using hnodup.1),
        hkeep (before.take start) fun x hx hmem =>
          h.notBefore x (mem_cons_of_mem d hx) (mem_of_mem_take hmem)]
    rw [heq, hright] at hleft
    have htake :=
      ((append_cons_inj_of_notMem hd (h.notAfter d mem_cons_self)).mp hleft).1
    have hlength := congrArg List.length htake
    rw [length_take] at hlength
    omega

/-- From a later start the last element is moved over what follows the
region, unless it is in the region and the start is the next one. -/
theorem start_le_succ (h : IsRegion before xs after ds) (hne : ds ≠ []) {j : ℕ} (hj : 0 < j)
    (hafter : after ≠ [])
    (heq : placeAll (before ++ (xs ++ after)) (before.length + j) ds = before ++ (ds ++ after)) :
    j = 1 ∧ ∃ l ∈ ds.getLast?, l ∈ xs := by
  have htail := (nodup_append.mp h.nodup).2.1
  rw [placeAll_behind h.nodup h.notBefore] at heq
  replace heq := append_cancel_left heq
  obtain ⟨init, l, rfl⟩ : ∃ init l, ds = init ++ [l] :=
    ⟨_, _, (dropLast_append_getLast hne).symm⟩
  have hinit : l ∉ init := fun hl =>
    (nodup_append.mp h.distinct).2.2 l hl l mem_cons_self rfl
  have hl := h.notAfter l (by simp)
  have hplaced := nodup_placeAll htail j init
  rw [placeAll_concat, place_eq hplaced, append_assoc, singleton_append] at heq
  obtain ⟨htake, -, hdrop⟩ := (append_cons_inj_of_notMem hinit hl).mp heq.symm
  generalize hys : placeAll (xs ++ after) j init = ys at *
  -- something follows, so the position of the last element was reached
  have hlength : j + init.length < ys.length := by
    by_contra hge
    rw [drop_eq_nil_of_le (Nat.not_lt.mp hge)] at hdrop
    exact hafter hdrop
  have hlen := congrArg List.length htake
  have hmem : l ∈ ys.take (j + init.length) := by
    by_contra hnot
    rw [erase_of_not_mem hnot, length_take] at hlen
    omega
  rw [length_erase_of_mem hmem, length_take] at hlen
  refine ⟨by omega, l, by simp, ?_⟩
  have hl' := mem_of_mem_take hmem
  rw [← hys, mem_placeAll htail, mem_append] at hl'
  exact (hl'.resolve_left hinit).resolve_right hl

/-- The loop orders the region and leaves the rest exactly from these
starts. -/
theorem placeAll_eq_iff (h : IsRegion before xs after ds) :
    placeAll (before ++ (xs ++ after)) start ds = before ++ (ds ++ after) ↔
      InPlace before xs after ds start := by
  refine ⟨fun heq => ?_, placeAll_region h⟩
  by_cases hne : ds = []
  · exact .inl hne
  obtain ⟨j, rfl⟩ := Nat.exists_eq_add_of_le (before_le_start h hne heq)
  rcases Nat.eq_zero_or_pos j with rfl | hj
  · exact .inr (.inl rfl)
  · refine .inr (.inr ⟨by omega, ?_⟩)
    by_cases hafter : after = []
    · exact .inl hafter
    · obtain ⟨rfl, hlast⟩ := start_le_succ h hne hj hafter heq
      exact .inr ⟨rfl, hlast⟩

end Region

end Vertz.Lib
