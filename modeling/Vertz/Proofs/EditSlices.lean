import Vertz.Proofs.EditBuffer

/-!
# `Vertz.Proofs.EditSlices`: writing a transformed slice back

A slice takes the insertions at both of its ends, and the output writes
them around an overwrite of the range as well: written back, they stand
there twice.
-/

namespace Vertz.Proofs.EditSlices

open Vertz.Native.Compiler.MagicString
open Vertz.Native.Compiler Vertz.Spec Vertz.Proofs.EditSweep Vertz.Proofs.EditBuffer List

variable {source : Bytes} {edits : List Edit} {limit : ℕ} {eager : Bool}

/-! ### A merge at boundaries does not panic -/

theorem boundary_max {a b : ℕ} (ha : isCharBoundary source a = true)
    (hb : isCharBoundary source b = true) : isCharBoundary source (max a b) = true := by
  rcases le_total a b with h | h
  · rw [max_eq_right h]
    exact hb
  · rw [max_eq_left h]
    exact ha

theorem apply_isSome (eager : Bool) {merge : Merge} {e : Edit} (hcursor : isCharBoundary source merge.cursor = true)
    (hpos : isCharBoundary source e.pos = true) (hend : isCharBoundary source (stop e) = true)
    (hle : e.pos ≤ stop e) (hlimit : e.pos ≤ limit) :
    ∃ m, merge.apply source limit eager e = some m ∧ isCharBoundary source m.cursor = true := by
  by_cases h : e.pos < merge.cursor
  · exact ⟨_, apply_passed h, boundary_max hcursor hend⟩
  · exact ⟨_, apply_reached eager (Nat.le_of_not_lt h) hle hlimit hcursor hpos, hend⟩

theorem mergeEvents_isSome {a : ℕ} {events : List EditEvent}
    (h : ∀ event ∈ events, isCharBoundary source event.edit.pos = true ∧
      isCharBoundary source (stop event.edit) = true ∧ event.edit.pos ≤ stop event.edit ∧
      event.edit.pos ≤ limit)
    (ha : isCharBoundary source a = true) (hlimit : isCharBoundary source limit = true) :
    ∃ text, mergeEvents source a limit eager events = some text := by
  have hall : ∀ (es : List EditEvent) (merge : Merge), (∀ event ∈ es, event ∈ events) →
      isCharBoundary source merge.cursor = true →
      ∃ m, es.foldlM (fun (merge : Merge) event => merge.apply source limit eager event.edit) merge =
        some m ∧ isCharBoundary source m.cursor = true := by
    intro es
    induction es with
    | nil => exact fun merge _ hcursor => ⟨merge, rfl, hcursor⟩
    | cons event rest ih =>
      intro merge hmem hcursor
      obtain ⟨hpos, hend, hle, hbound⟩ := h event (hmem event mem_cons_self)
      obtain ⟨m, hstep, hm⟩ := apply_isSome eager hcursor hpos hend hle hbound
      obtain ⟨m', hrest, hm'⟩ := ih m (fun f hf => hmem f (mem_cons_of_mem event hf)) hm
      refine ⟨m', ?_, hm'⟩
      rw [foldlM_cons, hstep]
      exact hrest
  obtain ⟨m, hfold, hm⟩ := hall (events.mergeSort EditEvent.le) { cursor := a, result := [] }
    (fun event he => mem_mergeSort.mp he) ha
  rw [mergeEvents, hfold, Option.bind_some, Merge.copyTo]
  by_cases hlt : m.cursor < limit
  · rw [if_pos hlt, sliceOf_eq (le_of_lt hlt) hm hlimit]
    exact ⟨_, rfl⟩
  · rw [if_neg hlt]
    exact ⟨_, rfl⟩

/-! ### The slice -/

/-- The edits the slice is made of. -/
def affecting (edits : List Edit) (range : Span) : List Edit :=
  edits.filter fun e => affects range.start range.stop e

theorem affects_iff {s t : ℕ} {e : Edit} : affects s t e = true ↔
    if e.priority = 2 then e.pos < t ∧ s < stop e else s ≤ e.pos ∧ e.pos ≤ t := by
  cases e <;> simp [affects, Edit.priority, Edit.pos, stop]

theorem slice_events (source : Bytes) (edits : List Edit) (range : Span) :
    (((mk source edits).events.filter fun event =>
      affects range.start range.stop event.edit).map EditEvent.edit) =
        affecting edits range := by
  have hmap : (mk source edits).events.map EditEvent.edit = edits :=
    map_events ⟨source, edits⟩
  have hfilter := filter_map (f := EditEvent.edit)
    (p := fun e => affects range.start range.stop e)
    (l := (mk source edits).events)
  rw [hmap] at hfilter
  exact hfilter.symm

theorem slice_eq_merge {s t : ℕ} (hle : s ≤ t) (hs : isCharBoundary source s = true)
    (ht : isCharBoundary source t = true) :
    (mk source edits).getTransformedSlice s t =
      mergeEvents source s t false ((mk source edits).events.filter fun event =>
        affects s t event.edit) := by
  rw [getTransformedSlice]
  cases hevents : (mk source edits).events.filter fun event =>
      affects s t event.edit with
  | nil =>
    rw [mergeEvents, mergeSort_nil]
    show sliceOf source s t = Merge.copyTo source { cursor := s, result := [] } t
    rw [copyTo_eq hle hs ht, sliceOf_eq hle hs ht]
    rfl
  | cons event rest => exact if_neg Bool.false_ne_true

/-- The range cuts no overwrite, nothing goes around it and no overwrite of
some bytes starts with it. -/
structure Free (edits : List Edit) (range : Span) : Prop where
  le : range.start ≤ range.stop
  cuts : CutsNone edits range
  start : ∀ span ∈ spans edits, span.start = range.start → span.stop ≤ range.start
  outside : ∀ span ∈ spans edits, ¬ span.Inside range.start

variable {range : Span} {p : ℕ}

/-- An edit that covers a byte lies in front of the range, in it behind its
first byte, or behind it. -/
theorem Free.cases (h : Free edits range) {e : Edit} (he : e ∈ edits)
    (hcovers : e.pos ≤ p ∧ p < stop e) :
    stop e ≤ range.start ∨ (range.start < e.pos ∧ stop e ≤ range.stop) ∨ range.stop ≤ e.pos := by
  have hspan := mem_spans_of_lt he hcovers
  have hstart := h.start _ hspan
  have houtside := h.outside _ hspan
  have hle := h.le
  simp only [Span.Inside, not_and, not_lt] at hstart houtside
  rcases h.cuts _ hspan with hdis | hwithin | hwithin
  · simp only [Span.Disjoint] at hdis
    omega
  · simp only [Span.Within] at hwithin
    omega
  · simp only [Span.Within] at hwithin
    omega

theorem groupAt_affecting (hplaced : ∀ e ∈ edits, e.pos ≤ stop e)
    (hp : range.start < p ∧ p < range.stop) :
    groupAt (affecting edits range) p = groupAt edits p := by
  have hsame : ∀ k, (affecting edits range).filter (fun e => e.pos = p ∧ e.priority = k) =
      edits.filter fun e => e.pos = p ∧ e.priority = k := by
    intro k
    rw [affecting, filter_filter]
    apply filter_congr
    intro e he
    by_cases hpos : e.pos = p ∧ e.priority = k
    · have haffects : affects range.start range.stop e = true := by
        have hle := hplaced e he
        rw [affects_iff]
        split <;> omega
      rw [haffects, Bool.and_true]
    · rw [decide_eq_false hpos, Bool.false_and]
  rw [groupAt, groupAt, hsame, hsame, hsame]

/-- The edits that cover a byte of the range all affect the slice. -/
theorem any_affecting (h : Free edits range) (hp : range.start ≤ p ∧ p < range.stop)
    (covers : Edit → Bool) (hcovers : ∀ e, covers e = true → e.pos ≤ p ∧ p < stop e) :
    (affecting edits range).any covers = edits.any covers := by
  rw [Bool.eq_iff_iff, any_eq_true, any_eq_true]
  constructor
  · rintro ⟨e, he, hcover⟩
    exact ⟨e, (mem_filter.mp he).1, hcover⟩
  · rintro ⟨e, he, hcover⟩
    have hover := hcovers e hcover
    have hcases := h.cases he hover
    refine ⟨e, mem_filter.mpr ⟨he, ?_⟩, hcover⟩
    rw [affects_iff]
    split <;> omega

/-- Strictly inside the range the slice has what the output has. -/
theorem sweptAt_affecting (h : Free edits range) (hplaced : ∀ e ∈ edits, e.pos ≤ stop e)
    (hp : range.start < p ∧ p < range.stop) :
    sweptAt (affecting edits range) p = sweptAt edits p := by
  rw [sweptAt, sweptAt, groupAt_affecting hplaced hp, any_affecting h ⟨le_of_lt hp.1, hp.2⟩]
  intro e hover
  have hlt := of_decide_eq_true hover
  exact ⟨le_of_lt hlt.1, hlt.2⟩

theorem leftAt_affecting (h : Free edits range) (hp : range.start ≤ p ∧ p < range.stop) :
    leftAt source (affecting edits range) p = leftAt source edits p := by
  rw [leftAt, leftAt, any_affecting h hp]
  exact fun e hover => of_decide_eq_true hover

theorem sweptAt_end (h : Free edits range) (hp : p = range.start ∨ p = range.stop) :
    sweptAt (affecting edits range) p = insertedAt edits p := by
  have hle := h.le
  have hopen : ((affecting edits range).any fun e => decide (e.pos < p ∧ p < stop e)) = false := by
    rw [any_eq_false]
    intro e he hover
    have hlt := of_decide_eq_true hover
    obtain ⟨hmem, haffects⟩ := mem_filter.mp he
    have hcases := h.cases hmem ⟨le_of_lt hlt.1, hlt.2⟩
    rw [affects_iff] at haffects
    split at haffects <;> omega
  have hinserted : ∀ k < 2, (affecting edits range).filter (fun e => e.pos = p ∧ e.priority = k) =
      edits.filter fun e => e.pos = p ∧ e.priority = k := by
    intro k hk
    rw [affecting, filter_filter]
    apply filter_congr
    intro e _
    by_cases hpos : e.pos = p ∧ e.priority = k
    · have haffects : affects range.start range.stop e = true := by
        rw [affects_iff, if_neg (by omega)]
        omega
      rw [haffects, Bool.and_true]
    · rw [decide_eq_false hpos, Bool.false_and]
  have hoverwrites : (affecting edits range).filter (fun e => e.pos = p ∧ e.priority = 2) = [] := by
    rw [filter_eq_nil_iff]
    intro e he hat
    obtain ⟨hmem, haffects⟩ := mem_filter.mp he
    have hpos := of_decide_eq_true hat
    rw [affects_iff, if_pos hpos.2] at haffects
    have hcases := h.cases hmem (p := e.pos) ⟨le_refl _, by omega⟩
    omega
  rw [sweptAt, hopen]
  show emission p (groupAt (affecting edits range) p) = _
  rw [emission_groupAt, hoverwrites, emission, append_nil, ← inserted_eq,
    hinserted 0 (by omega), hinserted 1 (by omega), inserted_eq]

/-- What the output has in front of the range: the positions before it and
the texts at its start. -/
def frontOf (source : Bytes) (edits : List Edit) (range : Span) : Bytes :=
  ((List.range' 0 range.start).flatMap fun p => sweptAt edits p ++ leftAt source edits p) ++
    sweptAt edits range.start

/-- What the output has in the range, without the texts at its ends. -/
def bodyOf (source : Bytes) (edits : List Edit) (range : Span) : Bytes :=
  if range.start < range.stop then
    leftAt source edits range.start ++
      (List.range' (range.start + 1) (range.stop - range.start - 1)).flatMap fun p =>
        sweptAt edits p ++ leftAt source edits p
  else []

/-- What the output has behind the range: the texts at its end first, if
its end is not its start. -/
def restOf (source : Bytes) (edits : List Edit) (range : Span) : Bytes :=
  (if range.start < range.stop then sweptAt edits range.stop else []) ++
    leftAt source edits range.stop ++
      (List.range' (range.stop + 1) (source.length - range.stop)).flatMap fun p =>
        sweptAt edits p ++ leftAt source edits p

theorem output_split (hle : range.start ≤ range.stop) (hstop : range.stop ≤ source.length) :
    ((List.range (source.length + 1)).flatMap fun p => sweptAt edits p ++ leftAt source edits p) =
      frontOf source edits range ++ bodyOf source edits range ++ restOf source edits range := by
  by_cases hlt : range.start < range.stop
  · have hsplit : List.range (source.length + 1) = List.range' 0 range.start ++ range.start ::
        (List.range' (range.start + 1) (range.stop - range.start - 1) ++ range.stop ::
          List.range' (range.stop + 1) (source.length - range.stop)) := by
      have hone := range'_append_1 (s := 0) (m := range.start)
        (n := source.length + 1 - range.start)
      have htwo := range'_append_1 (s := range.start + 1) (m := range.stop - range.start - 1)
        (n := source.length - range.stop + 1)
      have hstart : range.start + 1 + (range.stop - range.start - 1) = range.stop := by omega
      rw [range_eq_range', show source.length + 1 =
        range.start + (source.length + 1 - range.start) by omega, ← hone, Nat.zero_add,
        show source.length + 1 - range.start = (source.length - range.start) + 1 by omega,
        range'_succ, show source.length - range.start =
          range.stop - range.start - 1 + (source.length - range.stop + 1) by omega, ← htwo,
        hstart, range'_succ]
    rw [hsplit, frontOf, bodyOf, if_pos hlt, restOf, if_pos hlt]
    simp only [flatMap_append, flatMap_cons, append_assoc]
  · have hsame : range.stop = range.start := by omega
    have hsplit : List.range (source.length + 1) = List.range' 0 range.start ++ range.start ::
          List.range' (range.start + 1) (source.length - range.start) := by
      have hone := range'_append_1 (s := 0) (m := range.start)
        (n := source.length + 1 - range.start)
      rw [range_eq_range', show source.length + 1 =
        range.start + (source.length + 1 - range.start) by omega, ← hone, Nat.zero_add,
        show source.length + 1 - range.start = (source.length - range.start) + 1 by omega,
        range'_succ]
    rw [hsplit, frontOf, bodyOf, if_neg hlt, restOf, if_neg hlt, hsame]
    simp only [flatMap_append, flatMap_cons, append_assoc, nil_append,
      append_nil]

/-- The slice: the insertions at its start, the body, and the insertions at
its end. -/
theorem getTransformedSlice_eq (h : Free edits range) (hplaced : WellPlaced source edits)
    (hnested : Nested edits) (hs : isCharBoundary source range.start = true)
    (ht : isCharBoundary source range.stop = true) :
    (mk source edits).getTransformedSlice range.start range.stop = some
      (insertedAt edits range.start ++ bodyOf source edits range ++
        if range.start < range.stop then insertedAt edits range.stop else []) := by
  have hall := wellPlaced_placed hplaced
  have hslice := slice_events source edits range
  have hfree : Placed source range.start range.stop (affecting edits range) := by
    refine ⟨fun e he => ?_, fun e he => hall.boundary e (mem_filter.mp he).1, hs, ht, h.le⟩
    obtain ⟨hmem, haffects⟩ := mem_filter.mp he
    have hrange := hall.range e hmem
    rw [affects_iff] at haffects
    by_cases hcovers : e.pos < stop e
    · have hcases := h.cases hmem (p := e.pos) ⟨le_refl _, hcovers⟩
      have hoverwrite : e.priority = 2 := by
        have hbound := priority_lt e
        by_contra hne
        exact not_covers_of_priority rfl (by omega) hcovers
      rw [if_pos hoverwrite] at haffects
      omega
    · split at haffects <;> omega
  have hidx : ((mk source edits).events.filter fun event =>
      affects range.start range.stop event.edit).Pairwise fun a b => a.idx < b.idx :=
    (events_idx ⟨source, edits⟩).sublist filter_sublist
  have hmerge := mergeEvents_eq false hidx (hslice ▸ hfree)
    (hslice ▸ fun e he f hf => hnested e (mem_filter.mp he).1 f (mem_filter.mp hf).1)
  rw [slice_eq_merge h.le hs ht, hmerge, hslice, sweptAt_end h (Or.inr rfl), sweptBefore]
  by_cases hlt : range.start < range.stop
  · have hinner : ∀ p ∈ List.range' (range.start + 1) (range.stop - range.start - 1),
        sweptAt (affecting edits range) p ++ leftAt source (affecting edits range) p =
          sweptAt edits p ++ leftAt source edits p := by
      intro p hp
      have hbounds := mem_range'_1.mp hp
      rw [sweptAt_affecting h (fun e he => (hall.range e he).2.1) (by omega),
        leftAt_affecting h (by omega)]
    rw [show range.stop - range.start = (range.stop - range.start - 1) + 1 by omega,
      range'_succ, flatMap_cons, flatMap_congr hinner, sweptAt_end h (Or.inl rfl),
      leftAt_affecting h ⟨le_refl _, hlt⟩, bodyOf, if_pos hlt, if_pos hlt]
    simp only [append_assoc]
  · have hsame : range.stop = range.start := by
      have hle := h.le
      omega
    rw [bodyOf, if_neg hlt, if_neg hlt, hsame, Nat.sub_self]
    simp

/-! ### Writing back -/

/-- The edits with one more overwrite, of the range. -/
def withOverwrite (edits : List Edit) (range : Span) (text : Bytes) : List Edit :=
  edits ++ [.overwrite range.start range.stop text]

theorem groupAt_withOverwrite (range : Span) (text : Bytes) (p : ℕ) :
    groupAt (withOverwrite edits range text) p =
      groupAt edits p ++ if range.start = p then [.overwrite range.start range.stop text] else [] := by
  by_cases h : range.start = p
  · simp [groupAt, withOverwrite, Edit.pos, Edit.priority, h]
  · simp [groupAt, withOverwrite, Edit.pos, Edit.priority, h]

/-- Away from the range nothing changes. -/
theorem swept_outside (source : Bytes) (edits : List Edit) (range : Span) (text : Bytes)
    (hp : p < range.start ∨ range.stop ≤ p) :
    (p ≠ range.start → sweptAt (withOverwrite edits range text) p = sweptAt edits p) ∧
      leftAt source (withOverwrite edits range text) p = leftAt source edits p := by
  constructor
  · intro hne
    have hgroup : groupAt (withOverwrite edits range text) p = groupAt edits p := by
      rw [groupAt_withOverwrite, if_neg (Ne.symm hne), append_nil]
    rw [sweptAt, sweptAt, hgroup, withOverwrite, any_append, any_cons, any_nil, Bool.or_false,
      show decide ((Edit.overwrite range.start range.stop text).pos < p ∧
        p < stop (.overwrite range.start range.stop text)) = false from
          decide_eq_false (by simp only [Edit.pos, stop]; omega), Bool.or_false]
  · rw [leftAt, leftAt, withOverwrite, any_append, any_cons, any_nil, Bool.or_false,
      show decide ((Edit.overwrite range.start range.stop text).pos ≤ p ∧
        p < stop (.overwrite range.start range.stop text)) = false from
          decide_eq_false (by simp only [Edit.pos, stop]; omega), Bool.or_false]

/-- Inside the range nothing else is left. -/
theorem swept_inside (source : Bytes) (edits : List Edit) (range : Span) (text : Bytes)
    (hp : range.start ≤ p ∧ p < range.stop) :
    (range.start < p → sweptAt (withOverwrite edits range text) p = []) ∧
      leftAt source (withOverwrite edits range text) p = [] := by
  have hmem : Edit.overwrite range.start range.stop text ∈ withOverwrite edits range text :=
    mem_append_right _ (mem_singleton_self _)
  constructor
  · intro hlt
    rw [sweptAt, if_pos]
    exact any_eq_true.mpr ⟨_, hmem, decide_eq_true ⟨hlt, hp.2⟩⟩
  · rw [leftAt, if_pos]
    exact any_eq_true.mpr ⟨_, hmem, decide_eq_true ⟨hp.1, hp.2⟩⟩

/-- At the start of a free range the new text comes last. -/
theorem swept_start (h : Free edits range) (text : Bytes) :
    sweptAt (withOverwrite edits range text) range.start = sweptAt edits range.start ++ text := by
  have hopen : (edits.any fun e => decide (e.pos < range.start ∧ range.start < stop e)) = false := by
    rw [any_eq_false]
    intro e he hover
    have hlt := of_decide_eq_true hover
    exact h.outside _ (mem_spans_of_lt he ⟨le_of_lt hlt.1, hlt.2⟩) hlt
  have hopen' : ((withOverwrite edits range text).any fun e =>
      decide (e.pos < range.start ∧ range.start < stop e)) = false := by
    rw [withOverwrite, any_append, hopen, any_cons, any_nil]
    simp [Edit.pos]
  have hgroup : ∀ e ∈ groupAt edits range.start, ¬ range.start < stop e := by
    intro e he hcovers
    obtain ⟨hmem, hpos⟩ := mem_groupAt.mp he
    have hspan := mem_spans_of_lt hmem (p := range.start) ⟨le_of_eq hpos, hcovers⟩
    exact absurd hcovers (not_lt.mpr (h.start _ hspan hpos))
  have hold := emission_append (groupAt edits range.start) [] hgroup
  rw [append_nil, emission, append_nil] at hold
  rw [sweptAt, sweptAt, hopen, hopen', groupAt_withOverwrite, if_pos rfl]
  show emission range.start (_ ++ [_]) = emission range.start _ ++ text
  rw [emission_append _ _ hgroup, hold, emission, emission]
  simp [Edit.text]

theorem nested_withOverwrite (hle : range.start ≤ range.stop) (hcuts : CutsNone edits range)
    (hplaced : ∀ e ∈ edits, e.pos ≤ stop e) (hnested : Nested edits) (text : Bytes) :
    Nested (withOverwrite edits range text) := by
  intro e he f hf hlt hinside
  rcases mem_append.mp he with he | he
  · have hspan := hcuts _ (mem_spans_of_lt he ⟨le_of_lt hlt, hinside⟩)
    rcases mem_append.mp hf with hf | hf
    · exact hnested e he f hf hlt hinside
    · rw [mem_singleton.mp hf] at hlt hinside ⊢
      have hlt' : e.pos < range.start := hlt
      have hinside' : range.start < stop e := hinside
      simp only [Span.Disjoint, Span.Within] at hspan
      rcases hspan with hspan | hspan | hspan
      · omega
      · omega
      · exact hspan.2
  · rw [mem_singleton.mp he] at hlt hinside ⊢
    rcases mem_append.mp hf with hf | hf
    · have hle := hplaced f hf
      have hlt' : range.start < f.pos := hlt
      have hinside' : f.pos < range.stop := hinside
      show stop f ≤ range.stop
      by_cases hcovers : f.pos < stop f
      · have hspan := hcuts _ (mem_spans_of_lt hf ⟨le_refl _, hcovers⟩)
        simp only [Span.Disjoint, Span.Within] at hspan
        omega
      · omega
    · rw [mem_singleton.mp hf] at hlt
      exact absurd hlt (lt_irrefl _)

theorem wellPlaced_withOverwrite (hplaced : WellPlaced source edits)
    (hle : range.start ≤ range.stop) (hs : isCharBoundary source range.start = true)
    (ht : isCharBoundary source range.stop = true) (text : Bytes) :
    WellPlaced source (withOverwrite edits range text) := by
  intro e he
  rcases mem_append.mp he with he | he
  · exact hplaced e he
  · rw [mem_singleton.mp he]
    refine ⟨hs, fun span hspan => ?_⟩
    obtain rfl := Option.some.inj hspan
    exact ⟨hle, ht⟩

/-- The output with a free range overwritten: the text of its start, the new
text, and the rest. -/
theorem output_withOverwrite (h : Free edits range) (hstop : range.stop ≤ source.length)
    (text : Bytes) :
    ((List.range (source.length + 1)).flatMap fun p =>
        sweptAt (withOverwrite edits range text) p ++
          leftAt source (withOverwrite edits range text) p) =
      frontOf source edits range ++ text ++ restOf source edits range := by
  rw [output_split h.le hstop]
  have hfront : frontOf source (withOverwrite edits range text) range =
      frontOf source edits range ++ text := by
    rw [frontOf, frontOf, swept_start h, ← append_assoc]
    congr 2
    apply flatMap_congr
    intro p hp
    have hlt := (mem_range'_1.mp hp).2
    obtain ⟨hswept, hleft⟩ := swept_outside source edits range text (p := p)
        (Or.inl (by omega))
    rw [hswept (by omega), hleft]
  have hbody : bodyOf source (withOverwrite edits range text) range = [] := by
    rw [bodyOf]
    split
    · next hlt =>
        rw [(swept_inside source edits range text ⟨le_refl _, hlt⟩).2, nil_append, flatMap_eq_nil_iff]
        intro p hp
        have hbounds := mem_range'_1.mp hp
        obtain ⟨hswept, hleft⟩ := swept_inside source edits range text (p := p) (by omega)
        rw [hswept (by omega), hleft, nil_append]
    · rfl
  have hrest : restOf source (withOverwrite edits range text) range =
      restOf source edits range := by
    rw [restOf, restOf]
    congr 1
    · have hend := swept_outside source edits range text
        (p := range.stop) (Or.inr (le_refl _))
      rw [hend.2]
      by_cases hlt : range.start < range.stop
      · rw [if_pos hlt, if_pos hlt, hend.1 (by omega)]
      · rw [if_neg hlt, if_neg hlt]
    · apply flatMap_congr
      intro p hp
      have hbounds := mem_range'_1.mp hp
      have hle := h.le
      obtain ⟨hswept, hleft⟩ := swept_outside source edits range text (p := p)
        (Or.inr (by omega))
      rw [hswept (by omega), hleft]
  rw [hfront, hbody, hrest, append_nil]

/-- An overwrite around the range hides whatever is written over it. -/
theorem output_enclosed (source : Bytes) (hcuts : CutsNone edits range) {outer : Span}
    (houter : outer ∈ spans edits) (hinside : outer.Inside range.start)
    (hle : range.start ≤ range.stop) (text : Bytes) (p : ℕ) :
    sweptAt (withOverwrite edits range text) p = sweptAt edits p ∧
      leftAt source (withOverwrite edits range text) p = leftAt source edits p := by
  obtain ⟨outerText, hmem⟩ := mem_spans.mp houter
  have hbounds : outer.start < range.start ∧ range.stop ≤ outer.stop := by
    have hcut := hcuts outer houter
    simp only [Span.Inside, Span.Disjoint, Span.Within] at hinside hcut
    omega
  by_cases hp : range.start ≤ p ∧ p < range.stop
  · -- every position of the range is covered by the outer overwrite already
    have hleft : (edits.any fun e => decide (e.pos ≤ p ∧ p < stop e)) = true :=
      any_eq_true.mpr ⟨_, hmem, decide_eq_true
        ⟨le_of_lt (lt_of_lt_of_le hbounds.1 hp.1), lt_of_lt_of_le hp.2 hbounds.2⟩⟩
    have hswept : (edits.any fun e => decide (e.pos < p ∧ p < stop e)) = true :=
      any_eq_true.mpr ⟨_, hmem, decide_eq_true
        ⟨lt_of_lt_of_le hbounds.1 hp.1, lt_of_lt_of_le hp.2 hbounds.2⟩⟩
    rw [sweptAt, sweptAt, leftAt, leftAt, withOverwrite, any_append, any_append, hleft,
      hswept]
    exact ⟨rfl, rfl⟩
  · have hout : p < range.start ∨ range.stop ≤ p := by omega
    obtain ⟨hswept, hleft⟩ := swept_outside source edits range text (p := p)
        hout
    refine ⟨?_, hleft⟩
    by_cases hne : p = range.start
    · -- an empty range inside the outer overwrite
      subst hne
      have hover : (edits.any fun e => decide (e.pos < range.start ∧ range.start < stop e)) = true :=
        any_eq_true.mpr ⟨_, hmem, decide_eq_true hinside⟩
      rw [sweptAt, sweptAt, withOverwrite, any_append, hover]
      rfl
    · exact hswept hne

/-- Writing a transformed slice over its range: inside an overwrite it
changes nothing; elsewhere, where no overwrite of some bytes starts with
the range, the insertions at the two ends are written once more. -/
theorem slice_written_back (source : Bytes) (edits : List Edit) (range : Span)
    (hplaced : WellPlaced source edits) (hdisjoint : DisjointOverwrites edits)
    (hle : range.start ≤ range.stop) (hs : isCharBoundary source range.start = true)
    (ht : isCharBoundary source range.stop = true) (hcuts : CutsNone edits range)
    (hstart : ∀ span ∈ spans edits, span.start = range.start → span.stop ≤ range.start) :
    ∃ slice, (mk source edits).getTransformedSlice range.start range.stop = some slice ∧
      ((∃ span ∈ spans edits, span.Inside range.start) →
        (rewritten ⟨source, edits⟩ range slice).toString = (mk source edits).toString) ∧
      ((∀ span ∈ spans edits, ¬ span.Inside range.start) → ∃ front body rest,
        (mk source edits).toString = some (front ++ body ++ rest) ∧
        slice = insertedAt edits range.start ++ body ++
          (if range.start < range.stop then insertedAt edits range.stop else []) ∧
        (rewritten ⟨source, edits⟩ range slice).toString = some (front ++ slice ++ rest)) := by
  have hlaminar : Laminar edits := hdisjoint.imp Or.inl
  have hnested := laminar_nested hlaminar
  have hall := wellPlaced_placed hplaced
  have hstops := fun e he => (hall.range e he).2.1
  have hnew : ∀ text, (rewritten ⟨source, edits⟩ range text).toString =
      some ((List.range (source.length + 1)).flatMap fun p =>
        sweptAt (withOverwrite edits range text) p ++
          leftAt source (withOverwrite edits range text) p) := fun text =>
    toString_eq (wellPlaced_withOverwrite hplaced hle hs ht text)
      (nested_withOverwrite hle hcuts hstops hnested text)
  by_cases hinside : ∃ span ∈ spans edits, span.Inside range.start
  · obtain ⟨outer, houter, hin⟩ := hinside
    have hsome : ∃ slice,
        (mk source edits).getTransformedSlice range.start range.stop = some slice := by
      rw [slice_eq_merge hle hs ht]
      refine mergeEvents_isSome (fun event he => ?_) hs ht
      obtain ⟨hevent, haffects⟩ := mem_filter.mp he
      have hmem : event.edit ∈ edits := by
        have h := mem_map_of_mem (f := EditEvent.edit) hevent
        rw [map_events] at h
        exact h
      refine ⟨(hall.boundary _ hmem).1, (hall.boundary _ hmem).2, hstops _ hmem, ?_⟩
      rw [affects_iff] at haffects
      split at haffects <;> omega
    obtain ⟨slice, hslice⟩ := hsome
    refine ⟨slice, hslice, fun _ => ?_, fun hnone => absurd hin (hnone outer houter)⟩
    rw [hnew, toString_eq hplaced hnested]
    congr 1
    apply flatMap_congr
    intro p _
    obtain ⟨hswept, hleft⟩ := output_enclosed source hcuts houter hin hle slice p
    rw [hswept, hleft]
  · have hfree : Free edits range := ⟨hle, hcuts, hstart, fun span hspan hin =>
      hinside ⟨span, hspan, hin⟩⟩
    have hstop := le_of_isCharBoundary ht
    refine ⟨_, getTransformedSlice_eq hfree hplaced hnested hs ht,
      fun hin => absurd hin hinside, fun _ => ⟨frontOf source edits range, bodyOf source edits range,
        restOf source edits range, ?_, rfl, ?_⟩⟩
    · rw [toString_eq hplaced hnested, output_split hle hstop]
    · rw [hnew, output_withOverwrite hfree hstop]

/-- The identifier `ab` with `.v` appended, and an overwrite of the byte
behind it. -/
def readSignal : List Edit := [.insertAfter 2 [46, 118], .overwrite 2 3 []]

theorem readSignal_written_back :
    ∃ slice, (mk [97, 98, 33] readSignal).getTransformedSlice 0 2 = some slice ∧
      ((∃ span ∈ spans readSignal, span.Inside 0) →
        (rewritten ⟨[97, 98, 33], readSignal⟩ ⟨0, 2⟩ slice).toString =
          (mk [97, 98, 33] readSignal).toString) ∧
      ((∀ span ∈ spans readSignal, ¬ span.Inside 0) → ∃ front body rest,
        (mk [97, 98, 33] readSignal).toString = some (front ++ body ++ rest) ∧
        slice = insertedAt readSignal 0 ++ body ++
          (if 0 < 2 then insertedAt readSignal 2 else []) ∧
        (rewritten ⟨[97, 98, 33], readSignal⟩ ⟨0, 2⟩ slice).toString =
          some (front ++ slice ++ rest)) :=
  slice_written_back [97, 98, 33] readSignal ⟨0, 2⟩ (by decide)
    (by unfold DisjointOverwrites; decide) (by decide) (by decide) (by decide)
    (by unfold CutsNone; decide) (by decide)

/-- The slice of the identifier has the `.v`, and the output has it again
behind the range. -/
theorem boundary_insertion_twice :
    DisjointOverwrites readSignal ∧ CutsNone readSignal ⟨0, 2⟩ ∧
      ∃ slice, (mk [97, 98, 33] readSignal).getTransformedSlice 0 2 = some slice ∧
        (rewritten ⟨[97, 98, 33], readSignal⟩ ⟨0, 2⟩ slice).toString ≠
          (mk [97, 98, 33] readSignal).toString := by
  have hdisjoint : DisjointOverwrites readSignal := by
    unfold DisjointOverwrites
    decide
  have hcuts : CutsNone readSignal ⟨0, 2⟩ := by
    unfold CutsNone
    decide
  have hplaced : WellPlaced [97, 98, 33] readSignal := by decide
  have hnested := laminar_nested (hdisjoint.imp Or.inl)
  have hfree : Free readSignal ⟨0, 2⟩ := ⟨by decide, hcuts, by decide, by decide⟩
  refine ⟨hdisjoint, hcuts, _, getTransformedSlice_eq hfree hplaced hnested (by decide) (by decide),
    ?_⟩
  show (mk [97, 98, 33] (withOverwrite readSignal ⟨0, 2⟩ _)).toString ≠ _
  rw [toString_eq hplaced hnested, toString_eq (wellPlaced_withOverwrite hplaced (by decide)
    (by decide) (by decide) _) (nested_withOverwrite (by decide) hcuts (by decide) hnested _)]
  decide

end Vertz.Proofs.EditSlices
