import Mathlib.Data.List.Nodup
import Mathlib.Data.List.Range
import Vertz.Spec.EditBuffer

/-!
# `Vertz.Proofs.EditSweep`: the merge goes through the positions once

The sorted events are the edits position by position (`sorted_edits`). At
a position the cursor has not passed, the merge writes the source up to it
and the texts of the edits there, up to the first one that moves the cursor
on; at a position it has passed it writes nothing (`mergeEvents_eq`).

`Nested` is all that is needed of the overwrites: none that starts strictly
inside another reaches out of it.
-/

namespace Vertz.Proofs.EditSweep

open Vertz.Native.Compiler List

/-! ### Edits -/

/-- Where an edit moves the cursor. -/
def stop : Edit → ℕ
  | .overwrite _ stop _ => stop
  | .insertBefore pos _ => pos
  | .insertAfter pos _ => pos

/-- The edits at a position in the order they are merged in. -/
def groupAt (edits : List Edit) (pos : ℕ) : List Edit :=
  edits.filter (fun e => e.pos = pos ∧ e.priority = 0) ++
    (edits.filter (fun e => e.pos = pos ∧ e.priority = 1) ++
      edits.filter fun e => e.pos = pos ∧ e.priority = 2)

/-- No overwrite that starts inside another one reaches out of it. -/
def Nested (edits : List Edit) : Prop :=
  ∀ e ∈ edits, ∀ f ∈ edits, e.pos < f.pos → f.pos < stop e → stop f ≤ stop e

/-- The texts of the edits at a position, up to the first one that covers
the byte there. -/
def emission (pos : ℕ) : List Edit → Bytes
  | [] => []
  | e :: rest => e.text ++ if pos < stop e then [] else emission pos rest

/-- What the merge writes at a position. -/
def sweptAt (edits : List Edit) (pos : ℕ) : Bytes :=
  if edits.any fun e => decide (e.pos < pos ∧ pos < stop e) then []
  else emission pos (groupAt edits pos)

/-- The byte the merge keeps at a position. -/
def leftAt (source : Bytes) (edits : List Edit) (pos : ℕ) : Bytes :=
  if edits.any fun e => decide (e.pos ≤ pos ∧ pos < stop e) then [] else (source[pos]?).toList

/-- The source between two positions. -/
def seg (source : Bytes) (start stop : ℕ) : Bytes := (source.drop start).take (stop - start)

/-! ### Sorting -/

theorem priority_lt (e : Edit) : e.priority < 3 := by
  cases e <;> simp [Edit.priority]

theorem mem_groupAt {edits : List Edit} {pos : ℕ} {e : Edit} :
    e ∈ groupAt edits pos ↔ e ∈ edits ∧ e.pos = pos := by
  have hpriority := priority_lt e
  simp only [groupAt, mem_append, mem_filter, decide_eq_true_eq]
  constructor
  · rintro (h | h | h)
    · exact ⟨h.1, h.2.1⟩
    · exact ⟨h.1, h.2.1⟩
    · exact ⟨h.1, h.2.1⟩
  · rintro ⟨he, hp⟩
    have hcases : e.priority = 0 ∨ e.priority = 1 ∨ e.priority = 2 := by omega
    rcases hcases with h | h | h
    · exact Or.inl ⟨he, hp, h⟩
    · exact Or.inr (Or.inl ⟨he, hp, h⟩)
    · exact Or.inr (Or.inr ⟨he, hp, h⟩)

/-- The events of a position, in the order of `groupAt`. -/
def eventsAt (events : List EditEvent) (pos : ℕ) : List EditEvent :=
  events.filter (fun e => e.edit.pos = pos ∧ e.edit.priority = 0) ++
    (events.filter (fun e => e.edit.pos = pos ∧ e.edit.priority = 1) ++
      events.filter fun e => e.edit.pos = pos ∧ e.edit.priority = 2)

theorem map_eventsAt (events : List EditEvent) (pos : ℕ) :
    (eventsAt events pos).map EditEvent.edit = groupAt (events.map EditEvent.edit) pos := by
  simp only [eventsAt, groupAt, map_append, filter_map]
  rfl

theorem eventsAt_perm (events : List EditEvent) (pos : ℕ) :
    (eventsAt events pos).Perm (events.filter fun e => e.edit.pos = pos) := by
  induction events with
  | nil => exact List.Perm.refl _
  | cons e rest ih =>
    have hpriority := priority_lt e.edit
    have hcases : e.edit.priority = 0 ∨ e.edit.priority = 1 ∨ e.edit.priority = 2 := by omega
    rw [filter_cons]
    by_cases hp : e.edit.pos = pos
    · rw [if_pos (decide_eq_true hp)]
      rcases hcases with h | h | h
      · simpa [eventsAt, hp, h] using ih.cons e
      · refine List.Perm.trans ?_ (ih.cons e)
        simp only [eventsAt, filter_cons, hp, h]
        exact perm_middle
      · refine List.Perm.trans ?_ (ih.cons e)
        simp only [eventsAt, filter_cons, hp, h, ← append_assoc]
        exact perm_middle
    · rw [if_neg (by simpa using hp)]
      simpa [eventsAt, hp] using ih

theorem perm_positions (events : List EditEvent) (a n : ℕ)
    (hrange : ∀ e ∈ events, a ≤ e.edit.pos ∧ e.edit.pos < a + n) :
    ((List.range' a n).flatMap (eventsAt events)).Perm events := by
  induction n generalizing events with
  | zero =>
    cases events with
    | nil => exact List.Perm.refl _
    | cons e rest =>
      have h := hrange e mem_cons_self
      omega
  | succ n ih =>
    rw [range'_concat, flatMap_append, flatMap_singleton, Nat.one_mul]
    have hsplit := filter_append_perm (fun e : EditEvent => decide (e.edit.pos < a + n)) events
    refine List.Perm.trans (List.Perm.append ?_ ?_) hsplit
    · refine List.Perm.trans (List.Perm.of_eq ?_) (ih (events.filter fun e =>
        decide (e.edit.pos < a + n)) ?_)
      · apply flatMap_congr
        intro pos hpos
        have hlt : pos < a + n := by
          have h := mem_range'_1.mp hpos
          omega
        simp only [eventsAt, filter_filter]
        have hsame : ∀ k, events.filter (fun e => decide (e.edit.pos = pos ∧ e.edit.priority = k)) =
            events.filter fun e => decide (e.edit.pos = pos ∧ e.edit.priority = k) &&
              decide (e.edit.pos < a + n) := by
          intro k
          apply filter_congr
          intro e _
          by_cases hp : e.edit.pos = pos
          · simp [hp, hlt]
          · simp [hp]
        rw [← hsame, ← hsame, ← hsame]
      · intro e he
        have hmem := mem_filter.mp he
        exact ⟨(hrange e hmem.1).1, of_decide_eq_true hmem.2⟩
    · refine List.Perm.trans (eventsAt_perm events (a + n)) (List.Perm.of_eq ?_)
      apply filter_congr
      intro e he
      have h := hrange e he
      by_cases hp : e.edit.pos = a + n
      · simp [hp]
      · have hlt : e.edit.pos < a + n := by omega
        simp [hp, hlt]

/-- The key the events are sorted by. -/
theorem le_iff (a b : EditEvent) : EditEvent.le a b = true ↔
    a.edit.pos < b.edit.pos ∨ (a.edit.pos = b.edit.pos ∧
      (a.edit.priority < b.edit.priority ∨ (a.edit.priority = b.edit.priority ∧ a.idx ≤ b.idx))) := by
  simp [EditEvent.le]

variable {events : List EditEvent}

theorem pairwise_group (hidx : events.Pairwise fun a b => a.idx < b.idx) (pos k : ℕ) :
    (events.filter fun e => e.edit.pos = pos ∧ e.edit.priority = k).Pairwise
      fun a b => EditEvent.le a b = true := by
  have hsub := hidx.sublist (filter_sublist (p := fun e : EditEvent =>
    decide (e.edit.pos = pos ∧ e.edit.priority = k)))
  refine hsub.imp_of_mem ?_
  intro a b ha hb hlt
  have ha' := of_decide_eq_true (mem_filter.mp ha).2
  have hb' := of_decide_eq_true (mem_filter.mp hb).2
  rw [le_iff]
  omega

theorem pairwise_eventsAt (hidx : events.Pairwise fun a b => a.idx < b.idx) (pos : ℕ) :
    (eventsAt events pos).Pairwise fun a b => EditEvent.le a b = true := by
  have hacross : ∀ k l, k < l → ∀ a ∈ events.filter (fun e => e.edit.pos = pos ∧ e.edit.priority = k),
      ∀ b ∈ events.filter (fun e => e.edit.pos = pos ∧ e.edit.priority = l),
        EditEvent.le a b = true := by
    intro k l hkl a ha b hb
    have ha' := of_decide_eq_true (mem_filter.mp ha).2
    have hb' := of_decide_eq_true (mem_filter.mp hb).2
    rw [le_iff]
    omega
  rw [eventsAt, pairwise_append, pairwise_append]
  refine ⟨pairwise_group hidx pos 0, ⟨pairwise_group hidx pos 1, pairwise_group hidx pos 2,
    hacross 1 2 (by omega)⟩, fun a ha b hb => ?_⟩
  rcases mem_append.mp hb with hb | hb
  · exact hacross 0 1 (by omega) a ha b hb
  · exact hacross 0 2 (by omega) a ha b hb

theorem mem_eventsAt_pos {pos : ℕ} {e : EditEvent} (h : e ∈ eventsAt events pos) :
    e.edit.pos = pos :=
  of_decide_eq_true (mem_filter.mp ((eventsAt_perm events pos).mem_iff.mp h)).2

theorem sorted_events (hidx : events.Pairwise fun a b => a.idx < b.idx) (a n : ℕ)
    (hrange : ∀ e ∈ events, a ≤ e.edit.pos ∧ e.edit.pos < a + n) :
    events.mergeSort EditEvent.le = (List.range' a n).flatMap (eventsAt events) := by
  have hperm := perm_positions events a n hrange
  refine @List.Perm.eq_of_pairwise _ (fun x y => EditEvent.le x y = true) _ _ ?_ ?_ ?_
    ((mergeSort_perm events EditEvent.le).trans hperm.symm)
  · intro x y hx hy hxy hyx
    rw [le_iff] at hxy hyx
    have hx' := mem_mergeSort.mp hx
    have hy' := hperm.mem_iff.mp hy
    have hsame : x.idx = y.idx := by omega
    have hnodup : (events.map EditEvent.idx).Nodup :=
      pairwise_map.mpr (hidx.imp fun h => ne_of_lt h)
    exact inj_on_of_nodup_map hnodup hx' hy' hsame
  · refine pairwise_mergeSort ?_ ?_ events
    · intro x y z hxy hyz
      rw [le_iff] at hxy hyz ⊢
      omega
    · intro x y
      rw [Bool.or_eq_true, le_iff, le_iff]
      omega
  · rw [pairwise_flatMap]
    refine ⟨fun pos _ => pairwise_eventsAt hidx pos, ?_⟩
    refine (pairwise_lt_range' (s := a) (n := n)).imp ?_
    intro p q hpq x hx y hy
    rw [le_iff, mem_eventsAt_pos hx, mem_eventsAt_pos hy]
    exact Or.inl hpq

theorem sorted_edits (hidx : events.Pairwise fun a b => a.idx < b.idx) (a n : ℕ)
    (hrange : ∀ e ∈ events, a ≤ e.edit.pos ∧ e.edit.pos < a + n) :
    (events.mergeSort EditEvent.le).map EditEvent.edit =
      (List.range' a n).flatMap (groupAt (events.map EditEvent.edit)) := by
  rw [sorted_events hidx a n hrange, map_flatMap]
  exact flatMap_congr fun pos _ => map_eventsAt events pos

/-! ### One edit -/

theorem seg_of_le (source : Bytes) {a b : ℕ} (h : b ≤ a) : seg source a b = [] := by
  rw [seg, Nat.sub_eq_zero_of_le h, take_zero]

theorem seg_succ (source : Bytes) {a b : ℕ} (h : a ≤ b) :
    seg source a (b + 1) = seg source a b ++ (source[b]?).toList := by
  rw [seg, seg, Nat.sub_add_comm h, take_add_one, getElem?_drop, Nat.add_sub_cancel' h]

theorem sliceOf_eq {source : Bytes} {a b : ℕ} (h : a ≤ b) (ha : isCharBoundary source a = true)
    (hb : isCharBoundary source b = true) : sliceOf source a b = some (seg source a b) := by
  rw [sliceOf, if_pos ⟨h, ha, hb⟩]
  rfl

variable {source : Bytes} {limit : ℕ} {eager : Bool} {merge : Merge} {edits : List Edit}

theorem copyTo_eq {pos : ℕ} (h : merge.cursor ≤ pos)
    (hcursor : isCharBoundary source merge.cursor = true)
    (hpos : isCharBoundary source pos = true) :
    merge.copyTo source pos = some (merge.result ++ seg source merge.cursor pos) := by
  rw [Merge.copyTo]
  by_cases hlt : merge.cursor < pos
  · rw [if_pos hlt, sliceOf_eq h hcursor hpos]
    rfl
  · rw [if_neg hlt, seg_of_le source (by omega), append_nil]

/-- The merge after an edit that the cursor has not passed: it writes the
source in front of the edit and its text. -/
def after (source : Bytes) (merge : Merge) (e : Edit) : Merge where
  cursor := stop e
  result := merge.result ++ seg source merge.cursor e.pos ++ e.text

theorem apply_reached (eager : Bool) {e : Edit} (h : merge.cursor ≤ e.pos) (hstop : e.pos ≤ stop e)
    (hlimit : e.pos ≤ limit) (hcursor : isCharBoundary source merge.cursor = true)
    (hpos : isCharBoundary source e.pos = true) :
    merge.apply source limit eager e = some (after source merge e) := by
  unfold Merge.apply
  rw [if_neg (not_lt.mpr h)]
  cases e with
  | overwrite start stop' text =>
    have hmax : max merge.cursor stop' = stop' := max_eq_right (le_trans h hstop)
    simp only [copyTo_eq (show merge.cursor ≤ start from h) hcursor hpos, hmax, Option.map_some, after,
      stop, Edit.pos, Edit.text]
  | insertBefore pos text =>
    simp only [copyTo_eq (show merge.cursor ≤ pos from h) hcursor hpos, Option.map_some, after, stop,
      Edit.pos, Edit.text]
  | insertAfter pos text =>
    have hboth : (if eager then (sliceOf source merge.cursor pos).map (merge.result ++ ·)
        else merge.copyTo source pos) = some (merge.result ++ seg source merge.cursor pos) := by
      cases eager with
      | false => exact copyTo_eq h hcursor hpos
      | true =>
        rw [if_pos rfl, sliceOf_eq (b := pos) h hcursor hpos]
        rfl
    have hle : pos ≤ limit := hlimit
    simp only [hboth, if_pos hle, Option.map_some, after, stop,
      Edit.pos, Edit.text]

/-- An edit the cursor has passed writes nothing. -/
theorem apply_passed {e : Edit} (h : e.pos < merge.cursor) :
    merge.apply source limit eager e = some { merge with cursor := max merge.cursor (stop e) } := by
  unfold Merge.apply
  rw [if_pos h]
  cases e with
  | overwrite start stop text => rfl
  | insertBefore pos text =>
    have hmax : max merge.cursor pos = merge.cursor := max_eq_left (le_of_lt h)
    simp only [stop, hmax]
  | insertAfter pos text =>
    have hmax : max merge.cursor pos = merge.cursor := max_eq_left (le_of_lt h)
    simp only [stop, hmax]

/-! ### The edits at one position -/

/-- Merge a list of edits. -/
def applyAll (source : Bytes) (limit : ℕ) (eager : Bool) (merge : Merge) (edits : List Edit) :
    Option Merge :=
  edits.foldlM (fun merge edit => merge.apply source limit eager edit) merge

theorem applyAll_append (merge : Merge) (es fs : List Edit) :
    applyAll source limit eager merge (es ++ fs) =
      (applyAll source limit eager merge es).bind fun m => applyAll source limit eager m fs := by
  rw [applyAll, foldlM_append]
  rfl

/-- Edits that the cursor has passed: the cursor goes to the last end. -/
theorem applyAll_passed (source : Bytes) (limit : ℕ) (eager : Bool) (merge : Merge)
    (group : List Edit) (h : ∀ e ∈ group, e.pos < merge.cursor) :
    ∃ cursor, applyAll source limit eager merge group = some { merge with cursor := cursor } ∧
      merge.cursor ≤ cursor ∧ (∀ e ∈ group, stop e ≤ cursor) ∧
      (cursor = merge.cursor ∨ ∃ e ∈ group, stop e = cursor) := by
  induction group generalizing merge with
  | nil => exact ⟨merge.cursor, rfl, le_refl _, (fun _ he => nomatch he), Or.inl rfl⟩
  | cons e rest ih =>
    have he := h e mem_cons_self
    obtain ⟨cursor, hall, hle, hstops, hfrom⟩ :=
      ih { merge with cursor := max merge.cursor (stop e) }
        (fun f hf => lt_of_lt_of_le (h f (mem_cons_of_mem e hf)) (le_max_left _ _))
    simp only at hall hle hfrom
    refine ⟨cursor, ?_, by omega, ?_, ?_⟩
    · rw [applyAll, foldlM_cons, apply_passed he]
      exact hall
    · intro f hf
      rcases mem_cons.mp hf with rfl | hf
      · omega
      · exact hstops f hf
    · rcases hfrom with hfrom | ⟨f, hf, hstop⟩
      · by_cases hmax : merge.cursor ≤ stop e
        · exact Or.inr ⟨e, mem_cons_self, by omega⟩
        · exact Or.inl (by omega)
      · exact Or.inr ⟨f, mem_cons_of_mem e hf, hstop⟩

/-- The edits at a position that the cursor has not passed. -/
theorem applyAll_reached (eager : Bool) {pos : ℕ} (group : List Edit) (hcursor : merge.cursor ≤ pos)
    (hlimit : pos ≤ limit) (hboundary : isCharBoundary source merge.cursor = true)
    (hgroup : ∀ e ∈ group, e.pos = pos ∧ pos ≤ stop e ∧ isCharBoundary source pos = true ∧
      isCharBoundary source (stop e) = true) :
    ∃ m, applyAll source limit eager merge group = some m ∧
      m.result ++ seg source m.cursor pos =
        merge.result ++ seg source merge.cursor pos ++ emission pos group ∧
      merge.cursor ≤ m.cursor ∧ (∀ e ∈ group, stop e ≤ m.cursor) ∧
      (m.cursor ≤ pos ∨ ∃ e ∈ group, stop e = m.cursor) ∧
      isCharBoundary source m.cursor = true := by
  induction group generalizing merge with
  | nil =>
    refine ⟨merge, rfl, ?_, le_refl _, (fun _ he => nomatch he), Or.inl hcursor, hboundary⟩
    rw [emission, append_nil]
  | cons e rest ih =>
    obtain ⟨rfl, hstop, hpos, hend⟩ := hgroup e mem_cons_self
    have hrest := fun f hf => hgroup f (mem_cons_of_mem e hf)
    have hstep := apply_reached eager hcursor hstop hlimit hboundary hpos
    have hcons : ∀ m, applyAll source limit eager (after source merge e) rest = some m →
        applyAll source limit eager merge (e :: rest) = some m := by
      intro m hm
      rw [applyAll, foldlM_cons, hstep]
      exact hm
    by_cases hcovers : e.pos < stop e
    · -- the cursor moves on: what follows at this position is skipped
      have hskip : ∀ f ∈ rest, f.pos < (after source merge e).cursor := by
        intro f hf
        rw [(hrest f hf).1]
        exact hcovers
      obtain ⟨cursor, hall, hle, hstops, hfrom⟩ := applyAll_passed source limit eager _ rest hskip
      simp only [after] at hle hfrom
      have hmoved : ∃ f ∈ e :: rest, stop f = cursor := by
        rcases hfrom with hfrom | ⟨f, hf, hstop'⟩
        · exact ⟨e, mem_cons_self, hfrom.symm⟩
        · exact ⟨f, mem_cons_of_mem e hf, hstop'⟩
      refine ⟨_, hcons _ hall, ?_, le_trans hcursor (le_trans hstop hle), ?_,
        Or.inr hmoved, ?_⟩
      · rw [emission, if_pos hcovers, append_nil]
        simp only [after, seg_of_le source (le_trans hstop hle), append_nil]
      · intro f hf
        rcases mem_cons.mp hf with rfl | hf
        · exact hle
        · exact hstops f hf
      · obtain ⟨f, hf, hstop'⟩ := hmoved
        simp only [← hstop']
        exact (hgroup f hf).2.2.2
    · have hsame : stop e = e.pos := by omega
      obtain ⟨m, hall, htext, hle, hstops, hfrom, hb⟩ :=
        @ih (after source merge e) (le_of_eq hsame) hend hrest
      simp only [after] at htext hle
      refine ⟨m, hcons m hall, ?_, by omega, ?_, ?_, hb⟩
      · rw [htext, emission, if_neg hcovers, hsame, seg_of_le source (le_refl _)]
        simp only [append_nil, append_assoc]
      · intro f hf
        rcases mem_cons.mp hf with rfl | hf
        · exact hle
        · exact hstops f hf
      · rcases hfrom with hfrom | ⟨f, hf, hstop'⟩
        · exact Or.inl hfrom
        · exact Or.inr ⟨f, mem_cons_of_mem e hf, hstop'⟩

/-! ### All positions -/

/-- The edits lie between two positions, which are boundaries as theirs
are. -/
structure Placed (source : Bytes) (a b : ℕ) (edits : List Edit) : Prop where
  range : ∀ e ∈ edits, a ≤ e.pos ∧ e.pos ≤ stop e ∧ stop e ≤ b
  boundary : ∀ e ∈ edits, isCharBoundary source e.pos = true ∧ isCharBoundary source (stop e) = true
  start : isCharBoundary source a = true
  stop : isCharBoundary source b = true
  le : a ≤ b

/-- What is written before a position: the texts and the bytes of the
positions in front of it. -/
def sweptBefore (source : Bytes) (edits : List Edit) (a pos : ℕ) : Bytes :=
  (List.range' a (pos - a)).flatMap fun q => sweptAt edits q ++ leftAt source edits q

/-- The merge when the edits with a smaller position than `bound` are done
and the source is written up to `pos`. -/
structure Merged (source : Bytes) (edits : List Edit) (text : Bytes) (pos bound : ℕ)
    (merge : Merge) : Prop where
  text : merge.result ++ seg source merge.cursor pos = text
  passed : ∀ e ∈ edits, e.pos < bound → stop e ≤ merge.cursor
  reached : merge.cursor ≤ pos ∨ ∃ e ∈ edits, e.pos < bound ∧ stop e = merge.cursor
  boundary : isCharBoundary source merge.cursor = true

theorem Merged.group (limit : ℕ) (eager : Bool) {a b pos : ℕ} {text : Bytes}
    (hplaced : Placed source a b edits)
    (hnested : Nested edits) (hpos : pos ≤ limit)
    (h : Merged source edits text pos pos merge) :
    ∃ m, applyAll source limit eager merge (groupAt edits pos) = some m ∧
      Merged source edits (text ++ sweptAt edits pos) pos (pos + 1) m := by
  have hat : ∀ e ∈ edits, e.pos < pos + 1 → e.pos < pos ∨ e ∈ groupAt edits pos := by
    intro e he hlt
    by_cases heq : e.pos = pos
    · exact Or.inr (mem_groupAt.mpr ⟨he, heq⟩)
    · exact Or.inl (by omega)
  by_cases hcursor : merge.cursor ≤ pos
  · have hopen : (edits.any fun e => decide (e.pos < pos ∧ pos < stop e)) = false := by
      rw [any_eq_false]
      intro e he
      simp only [decide_eq_true_eq, not_and]
      intro hlt
      have hle := h.passed e he hlt
      omega
    obtain ⟨m, hall, htext, hle, hstops, hfrom, hb⟩ := applyAll_reached eager
      (groupAt edits pos) hcursor hpos h.boundary (fun e he => by
        obtain ⟨hmem, rfl⟩ := mem_groupAt.mp he
        exact ⟨rfl, (hplaced.range e hmem).2.1, hplaced.boundary e hmem⟩)
    refine ⟨m, hall, ⟨?_, ?_, ?_, hb⟩⟩
    · rw [htext, h.text, sweptAt, hopen]
      rfl
    · intro e he hlt
      rcases hat e he hlt with hlt | hgroup
      · exact le_trans (h.passed e he hlt) hle
      · exact hstops e hgroup
    · rcases hfrom with hfrom | ⟨e, he, hstop⟩
      · exact Or.inl hfrom
      · obtain ⟨hmem, heq⟩ := mem_groupAt.mp he
        exact Or.inr ⟨e, hmem, by omega, hstop⟩
  · -- the position lies inside an overwrite that was merged before
    obtain ⟨outer, houter, hbefore, hend⟩ := h.reached.resolve_left hcursor
    have hclosed : (edits.any fun e => decide (e.pos < pos ∧ pos < stop e)) = true :=
      any_eq_true.mpr ⟨outer, houter, decide_eq_true ⟨hbefore, by omega⟩⟩
    obtain ⟨cursor, hall, hle, hstops, hfrom⟩ := applyAll_passed source limit eager
      merge (groupAt edits pos) (fun e he => by
        have heq := (mem_groupAt.mp he).2
        omega)
    have hinside : ∀ e ∈ groupAt edits pos, stop e ≤ merge.cursor := by
      intro e he
      obtain ⟨hmem, heq⟩ := mem_groupAt.mp he
      rw [← hend]
      exact hnested outer houter e hmem (by omega) (by omega)
    have hsame : cursor = merge.cursor := by
      rcases hfrom with hfrom | ⟨e, he, hstop⟩
      · exact hfrom
      · have hin := hinside e he
        omega
    subst hsame
    refine ⟨merge, hall, ⟨?_, ?_, Or.inr ⟨outer, houter, by omega, hend⟩, h.boundary⟩⟩
    · rw [h.text, sweptAt, hclosed, if_pos rfl, append_nil]
    · intro e he hlt
      rcases hat e he hlt with hlt | hgroup
      · exact h.passed e he hlt
      · exact hinside e hgroup

/-- The byte at the position is written unless an overwrite covers it. -/
theorem Merged.advance {pos : ℕ} {text : Bytes}
    (h : Merged source edits text pos (pos + 1) merge) :
    Merged source edits (text ++ leftAt source edits pos) (pos + 1) (pos + 1) merge := by
  refine ⟨?_, h.passed, ?_, h.boundary⟩
  · by_cases hcursor : merge.cursor ≤ pos
    · have hopen : (edits.any fun e => decide (e.pos ≤ pos ∧ pos < stop e)) = false := by
        rw [any_eq_false]
        intro e he
        simp only [decide_eq_true_eq, not_and]
        intro hle
        have hpassed := h.passed e he (by omega)
        omega
      rw [seg_succ source hcursor, ← append_assoc, h.text, leftAt, hopen]
      rfl
    · obtain ⟨outer, houter, hbefore, hend⟩ := h.reached.resolve_left hcursor
      have hclosed : (edits.any fun e => decide (e.pos ≤ pos ∧ pos < stop e)) = true :=
        any_eq_true.mpr ⟨outer, houter, decide_eq_true ⟨by omega, by omega⟩⟩
      rw [leftAt, hclosed, if_pos rfl, append_nil, ← h.text,
        seg_of_le source (by omega : pos + 1 ≤ merge.cursor),
        seg_of_le source (by omega : pos ≤ merge.cursor)]
  · rcases h.reached with hle | hreached
    · exact Or.inl (by omega)
    · exact Or.inr hreached

theorem merged_positions (limit : ℕ) (eager : Bool) {a b : ℕ} (n : ℕ)
    (hplaced : Placed source a b edits) (hnested : Nested edits)
    (hn : a + n ≤ limit + 1) :
    ∃ m, applyAll source limit eager { cursor := a, result := [] }
        ((List.range' a n).flatMap (groupAt edits)) = some m ∧
      Merged source edits (sweptBefore source edits a (a + n)) (a + n) (a + n) m := by
  induction n with
  | zero =>
    refine ⟨_, rfl, ⟨?_, ?_, Or.inl (le_refl a), hplaced.start⟩⟩
    · simp [sweptBefore, seg_of_le]
    · intro e he hlt
      have hrange := hplaced.range e he
      omega
  | succ n ih =>
    obtain ⟨m, hall, hmerged⟩ := ih (by omega)
    obtain ⟨m', hgroup, hmerged'⟩ := hmerged.group limit eager hplaced hnested (by omega)
    refine ⟨m', ?_, ?_⟩
    · rw [range'_concat, flatMap_append, applyAll_append, hall, Option.bind_some,
        flatMap_singleton, Nat.one_mul]
      exact hgroup
    · have hadvanced := hmerged'.advance
      have hlength : a + (n + 1) - a = (a + n - a) + 1 := by omega
      rw [sweptBefore, hlength, range'_concat, flatMap_append, flatMap_singleton,
        Nat.one_mul, Nat.add_sub_cancel_left, ← append_assoc]
      rw [sweptBefore, Nat.add_sub_cancel_left] at hadvanced
      exact hadvanced

/-- The merge writes, for each position from `a` to `b`, what is swept
there and, before `b`, the byte that is left. -/
theorem mergeEvents_eq (eager : Bool) {a b : ℕ} (hidx : events.Pairwise fun x y => x.idx < y.idx)
    (hplaced : Placed source a b (events.map EditEvent.edit))
    (hnested : Nested (events.map EditEvent.edit)) :
    mergeEvents source a b eager events = some
      (sweptBefore source (events.map EditEvent.edit) a b ++
        sweptAt (events.map EditEvent.edit) b) := by
  have hle := hplaced.le
  have hrange : ∀ e ∈ events, a ≤ e.edit.pos ∧ e.edit.pos < a + (b - a + 1) := by
    intro e he
    have h := hplaced.range e.edit (mem_map_of_mem he)
    omega
  obtain ⟨m, hall, hmerged⟩ := merged_positions b eager (b - a)
    hplaced hnested (by omega)
  rw [Nat.add_sub_cancel' hle] at hmerged
  obtain ⟨m', hgroup, hmerged'⟩ := hmerged.group b eager hplaced hnested (le_refl b)
  have hfold : (events.mergeSort EditEvent.le).foldlM
      (fun (merge : Merge) event => merge.apply source b eager event.edit)
      { cursor := a, result := [] } = some m' := by
    have hmap : (events.mergeSort EditEvent.le).foldlM
        (fun (merge : Merge) event => merge.apply source b eager event.edit)
        { cursor := a, result := [] } =
          applyAll source b eager { cursor := a, result := [] }
            ((events.mergeSort EditEvent.le).map EditEvent.edit) := by
      rw [applyAll, foldlM_map]
    rw [hmap, sorted_edits hidx a (b - a + 1) hrange, range'_concat, flatMap_append,
      applyAll_append, hall, Option.bind_some, flatMap_singleton, Nat.one_mul,
      Nat.add_sub_cancel' hle]
    exact hgroup
  have hcursor : m'.cursor ≤ b := by
    rcases hmerged'.reached with h | ⟨e, he, -, hend⟩
    · exact h
    · have h := hplaced.range e he
      omega
  rw [mergeEvents, hfold, Option.bind_some, copyTo_eq hcursor hmerged'.boundary hplaced.stop,
    hmerged'.text]

end Vertz.Proofs.EditSweep
