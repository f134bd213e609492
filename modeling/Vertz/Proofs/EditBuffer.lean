import Vertz.Proofs.EditSweep

/-!
# `Vertz.Proofs.EditBuffer`: overwrites that start at the same offset

Of the overwrites that start at one offset the merge writes those up to the
first one that covers a byte, and skips the rest: the cursor has passed
them. An enclosing overwrite recorded after a nested one with the same
start is lost that way.
-/

namespace Vertz.Proofs.EditBuffer

open Vertz.Native.Compiler.MagicString
open Vertz.Native.Compiler Vertz.Spec Vertz.Proofs.EditSweep List Nat

variable {source : Bytes} {edits : List Edit}

/-! ### Laminar overwrites -/

theorem mem_spans {span : Span} :
    span ∈ spans edits ↔ ∃ text, Edit.overwrite span.start span.stop text ∈ edits := by
  rw [spans, mem_filterMap]
  constructor
  · rintro ⟨edit, hedit, hspan⟩
    cases edit with
    | overwrite start stop text =>
      obtain rfl := Option.some.inj hspan
      exact ⟨text, hedit⟩
    | insertBefore pos text => cases hspan
    | insertAfter pos text => cases hspan
  · rintro ⟨text, hedit⟩
    exact ⟨_, hedit, rfl⟩

/-- Two overwrites of a laminar buffer do not cross. -/
theorem laminar_pair (h : Laminar edits) {a b : Span} (ha : a ∈ spans edits)
    (hb : b ∈ spans edits) : a.Disjoint b ∨ a.Within b ∨ b.Within a := by
  refine List.Pairwise.forall_of_forall_of_flip
    (R := fun a b : Span => a.Disjoint b ∨ a.Within b ∨ b.Within a) ?_ ?_ ?_ ha hb
  · intro x _
    exact Or.inr (Or.inl ⟨le_refl _, le_refl _⟩)
  · refine h.imp ?_
    rintro x y (hxy | hxy)
    · exact Or.inl hxy
    · exact Or.inr (Or.inl hxy)
  · refine h.imp ?_
    rintro x y (hxy | hxy)
    · exact Or.inl hxy.symm
    · exact Or.inr (Or.inr hxy)

theorem laminar_tail {edit : Edit} (h : Laminar (edit :: edits)) : Laminar edits := by
  rw [Laminar, spans, filterMap_cons] at h
  cases hspan : overwritten edit with
  | none =>
    rw [hspan] at h
    exact h
  | some span =>
    rw [hspan] at h
    exact (pairwise_cons.mp h).2

variable {p : ℕ}

/-- An edit around a position is an overwrite around it. -/
theorem span_of_lt {e : Edit} (h : e.pos ≤ p ∧ p < stop e) :
    overwritten e = some ⟨e.pos, stop e⟩ := by
  cases e with
  | overwrite start stop' text => rfl
  | insertBefore pos text => exact absurd h.2 (not_lt.mpr h.1)
  | insertAfter pos text => exact absurd h.2 (not_lt.mpr h.1)

theorem mem_spans_of_lt {e : Edit} (he : e ∈ edits) (h : e.pos ≤ p ∧ p < stop e) :
    Span.mk e.pos (stop e) ∈ spans edits :=
  mem_filterMap.mpr ⟨e, he, span_of_lt h⟩

theorem laminar_nested (h : Laminar edits) : Nested edits := by
  intro e he f hf hlt hinside
  have houter := mem_spans_of_lt he ⟨le_of_lt hlt, hinside⟩
  by_cases hcovers : f.pos < stop f
  · have hinner := mem_spans_of_lt hf ⟨le_refl _, hcovers⟩
    rcases laminar_pair h houter hinner with hdis | hwithin | hwithin
    · rcases hdis with hdis | hdis
      · simp only at hdis
        omega
      · simp only at hdis
        omega
    · have hle := hwithin.1
      simp only at hle
      omega
    · exact hwithin.2
  · omega

/-! ### The output, position by position -/

theorem le_of_isCharBoundary {index : ℕ} (h : isCharBoundary source index = true) :
    index ≤ source.length := by
  simp only [isCharBoundary, Bool.or_eq_true, beq_iff_eq, Option.any_eq_true] at h
  rcases h with (rfl | rfl) | ⟨b, hb, -⟩
  · exact zero_le _
  · exact le_refl _
  · exact le_of_lt (List.getElem?_eq_some_iff.mp hb).1

theorem wellPlaced_placed (h : WellPlaced source edits) :
    Placed source 0 source.length edits := by
  have hstop : ∀ e ∈ edits, e.pos ≤ stop e ∧ isCharBoundary source (stop e) = true := by
    intro e he
    obtain ⟨hpos, hspan⟩ := h e he
    cases e with
    | overwrite start stop' text => exact hspan ⟨start, stop'⟩ rfl
    | insertBefore pos text => exact ⟨le_refl _, hpos⟩
    | insertAfter pos text => exact ⟨le_refl _, hpos⟩
  refine ⟨fun e he => ?_, fun e he => ⟨(h e he).1, (hstop e he).2⟩, rfl, ?_, zero_le _⟩
  · exact ⟨zero_le _, (hstop e he).1, le_of_isCharBoundary (hstop e he).2⟩
  · simp [isCharBoundary]

theorem map_events (ms : MagicString) : ms.events.map EditEvent.edit = ms.edits := by
  rw [events, map_map]
  exact zipIdx_map_fst 0 ms.edits

theorem events_idx (ms : MagicString) : ms.events.Pairwise fun a b => a.idx < b.idx := by
  rw [events, pairwise_map]
  have hidx : (ms.edits.zipIdx.map Prod.snd).Pairwise (· < ·) := by
    rw [zipIdx_map_snd]
    exact pairwise_lt_range'
  exact pairwise_map.mp hidx

theorem seg_all (source : Bytes) : seg source 0 source.length = source := by
  rw [seg, drop_zero, Nat.sub_zero, take_length]

/-- The output of a buffer whose overwrites do not cross. -/
theorem toString_eq (hplaced : WellPlaced source edits) (hnested : Nested edits) :
    (mk source edits).toString = some ((List.range (source.length + 1)).flatMap
      fun p => sweptAt edits p ++ leftAt source edits p) := by
  have hevents := map_events ⟨source, edits⟩
  have hmerge : mergeEvents source 0 source.length true (mk source edits).events =
      some ((List.range (source.length + 1)).flatMap
        fun p => sweptAt edits p ++ leftAt source edits p) := by
    have hall : Placed source 0 source.length
        ((mk source edits).events.map EditEvent.edit) := by
      rw [hevents]
      exact wellPlaced_placed hplaced
    rw [mergeEvents_eq true (events_idx _) hall (by rw [hevents]; exact hnested), hevents, sweptBefore,
      Nat.sub_zero, ← range_eq_range', range_succ, flatMap_append,
      flatMap_singleton]
    have hend : leftAt source edits source.length = [] := by
      rw [leftAt, getElem?_eq_none (le_refl _)]
      exact ite_self _
    rw [hend, append_nil]
  rw [MagicString.toString]
  by_cases hempty : edits = []
  · subst hempty
    -- without edits the merge copies the source
    rw [← hmerge, mergeEvents, show (mk source []).events = [] from rfl,
      mergeSort_nil]
    show some source = Merge.copyTo source { cursor := 0, result := [] } source.length
    rw [copyTo_eq (zero_le _) rfl (by simp [isCharBoundary])]
    exact congrArg some (seg_all source).symm
  · rw [if_neg (by simpa using hempty), hmerge]

/-! ### Maximal overwrites -/

theorem mem_maximal_cons {edit : Edit} {o : Span × Bytes} (h : o ∈ maximalOverwrites edits) :
    o ∈ maximalOverwrites (edit :: edits) := by
  cases edit with
  | overwrite start stop text =>
    rw [maximalOverwrites]
    split
    · exact mem_cons_of_mem _ h
    · exact h
  | insertBefore pos text => exact h
  | insertAfter pos text => exact h

theorem span_of_mem_maximal {o : Span × Bytes} (h : o ∈ maximalOverwrites edits) :
    o.1 ∈ spans edits := by
  induction edits with
  | nil => cases h
  | cons edit later ih =>
    cases edit with
    | overwrite start stop text =>
      rw [maximalOverwrites] at h
      split at h
      · rcases mem_cons.mp h with rfl | h
        · exact mem_cons_self
        · exact mem_cons_of_mem _ (ih h)
      · exact mem_cons_of_mem _ (ih h)
    | insertBefore pos text => exact ih h
    | insertAfter pos text => exact ih h

/-- Every overwrite of a laminar buffer lies in a maximal one. -/
theorem exists_maximal (h : Laminar edits) {span : Span} (hspan : span ∈ spans edits) :
    ∃ o ∈ maximalOverwrites edits, span.Within o.1 := by
  induction edits generalizing span with
  | nil => cases hspan
  | cons edit later ih =>
    have hlater : ∀ {s : Span}, s ∈ spans later →
        ∃ o ∈ maximalOverwrites (edit :: later), s.Within o.1 := by
      intro s hs
      obtain ⟨o, ho, hwithin⟩ := ih (laminar_tail h) hs
      exact ⟨o, mem_maximal_cons ho, hwithin⟩
    cases edit with
    | overwrite start stop text =>
      rcases mem_cons.mp hspan with rfl | hspan
      · by_cases hall : (spans later).all fun s => decide ((Span.mk start stop).Disjoint s)
        · refine ⟨(⟨start, stop⟩, text), ?_, le_refl _, le_refl _⟩
          rw [maximalOverwrites, if_pos hall]
          exact mem_cons_self
        · simp only [all_eq_true, decide_eq_true_eq, not_forall] at hall
          obtain ⟨s, hs, hoverlap⟩ := hall
          have hwithin := ((pairwise_cons.mp h).1 s hs).resolve_left hoverlap
          obtain ⟨o, ho, hs'⟩ := hlater hs
          exact ⟨o, ho, le_trans hs'.1 hwithin.1, le_trans hwithin.2 hs'.2⟩
      · exact hlater hspan
    | insertBefore pos text => exact hlater hspan
    | insertAfter pos text => exact hlater hspan

/-- A position is strictly inside a maximal overwrite when it is strictly
inside some edit. -/
theorem any_inside (h : Laminar edits) (p : ℕ) :
    ((maximalOverwrites edits).any fun o => decide (o.1.Inside p)) =
      edits.any fun e => decide (e.pos < p ∧ p < stop e) := by
  rw [Bool.eq_iff_iff, any_eq_true, any_eq_true]
  constructor
  · rintro ⟨o, ho, hinside⟩
    obtain ⟨text, he⟩ := mem_spans.mp (span_of_mem_maximal ho)
    exact ⟨_, he, hinside⟩
  · rintro ⟨e, he, hinside⟩
    have hlt := of_decide_eq_true hinside
    obtain ⟨o, ho, hwithin⟩ :=
      exists_maximal h (mem_spans_of_lt he ⟨le_of_lt hlt.1, hlt.2⟩)
    exact ⟨o, ho, decide_eq_true
      ⟨lt_of_le_of_lt hwithin.1 hlt.1, lt_of_lt_of_le hlt.2 hwithin.2⟩⟩

theorem any_covers (h : Laminar edits) (p : ℕ) :
    ((maximalOverwrites edits).any fun o => decide (o.1.Covers p)) =
      edits.any fun e => decide (e.pos ≤ p ∧ p < stop e) := by
  rw [Bool.eq_iff_iff, any_eq_true, any_eq_true]
  constructor
  · rintro ⟨o, ho, hcovers⟩
    obtain ⟨text, he⟩ := mem_spans.mp (span_of_mem_maximal ho)
    exact ⟨_, he, hcovers⟩
  · rintro ⟨e, he, hcovers⟩
    have hlt := of_decide_eq_true hcovers
    obtain ⟨o, ho, hwithin⟩ := exists_maximal h (mem_spans_of_lt he hlt)
    exact ⟨o, ho, decide_eq_true
      ⟨le_trans hwithin.1 hlt.1, lt_of_lt_of_le hlt.2 hwithin.2⟩⟩

theorem keptAt_eq (h : Laminar edits) (p : ℕ) : keptAt source edits p = leftAt source edits p := by
  rw [keptAt, leftAt, any_covers h]

/-! ### The texts of one position -/

theorem emission_append (es fs : List Edit) (hopen : ∀ e ∈ es, ¬ p < stop e) :
    emission p (es ++ fs) = es.flatMap Edit.text ++ emission p fs := by
  induction es with
  | nil => rfl
  | cons e rest ih =>
    rw [cons_append, emission, if_neg (hopen e mem_cons_self),
      ih fun f hf => hopen f (mem_cons_of_mem e hf), flatMap_cons, append_assoc]

/-- What stands behind an edit that covers the byte is not written. -/
theorem emission_covered (es fs : List Edit) (hcovers : ∃ e ∈ es, p < stop e) :
    emission p (es ++ fs) = emission p es := by
  induction es with
  | nil =>
    obtain ⟨e, he, -⟩ := hcovers
    cases he
  | cons e rest ih =>
    rw [cons_append, emission, emission]
    by_cases h : p < stop e
    · rw [if_pos h, if_pos h]
    · rw [if_neg h, if_neg h, ih]
      obtain ⟨f, hf, hlt⟩ := hcovers
      rcases mem_cons.mp hf with rfl | hf
      · exact absurd hlt h
      · exact ⟨f, hf, hlt⟩

theorem inserted_eq (edits : List Edit) (p : ℕ) :
    (edits.filter fun e => e.pos = p ∧ e.priority = 0).flatMap Edit.text ++
        (edits.filter fun e => e.pos = p ∧ e.priority = 1).flatMap Edit.text =
      insertedAt edits p := by
  rw [insertedAt]
  congr 1
  · induction edits with
    | nil => rfl
    | cons e rest ih =>
      rw [flatMap_cons, ← ih]
      cases e with
      | overwrite start stop' text => simp [Edit.priority]
      | insertAfter pos text => simp [Edit.priority]
      | insertBefore pos text => by_cases h : pos = p <;> simp [Edit.priority, Edit.pos, Edit.text, h]
  · induction edits with
    | nil => rfl
    | cons e rest ih =>
      rw [flatMap_cons, ← ih]
      cases e with
      | overwrite start stop' text => simp [Edit.priority]
      | insertBefore pos text => simp [Edit.priority]
      | insertAfter pos text => by_cases h : pos = p <;> simp [Edit.priority, Edit.pos, Edit.text, h]

theorem not_covers_of_priority {e : Edit} (hp : e.pos = p) (h : e.priority < 2) : ¬ p < stop e := by
  subst hp
  cases e with
  | overwrite start stop' text => exact absurd h (lt_irrefl 2)
  | insertBefore pos text => exact lt_irrefl _
  | insertAfter pos text => exact lt_irrefl _

theorem emission_groupAt (edits : List Edit) (p : ℕ) :
    emission p (groupAt edits p) = insertedAt edits p ++
      emission p (edits.filter fun e => e.pos = p ∧ e.priority = 2) := by
  have hopen : ∀ k < 2, ∀ e ∈ edits.filter (fun e => e.pos = p ∧ e.priority = k),
      ¬ p < stop e := by
    intro k hk e he
    have h := of_decide_eq_true (mem_filter.mp he).2
    exact not_covers_of_priority h.1 (by omega)
  rw [groupAt, emission_append _ _ (hopen 0 (by omega)), emission_append _ _ (hopen 1 (by omega)),
    ← append_assoc, inserted_eq]

/-- A later overwrite that neither goes around a position nor starts there
is disjoint from one that does. -/
theorem disjoint_later {a b : Span} (ha : a.start = p) (hstop : p ≤ a.stop)
    (hlaminar : a.Disjoint b ∨ a.Within b) (hinside : ¬ b.Inside p)
    (hstart : p < a.stop → b.start ≠ p) : a.Disjoint b := by
  rcases hlaminar with hdis | hwithin
  · exact hdis
  · have hle := hwithin.1
    have hend := hwithin.2
    simp only [Span.Inside, not_and, not_lt] at hinside
    by_cases hcovers : p < a.stop
    · have hne := hstart hcovers
      have hout := hinside (by omega)
      omega
    · by_cases hlt : b.start < p
      · have hout := hinside hlt
        exact Or.inr (by omega)
      · exact Or.inl (by omega)

/-- Where no overwrite of some bytes is followed by another one with the
same start, the overwrites at a position are the maximal ones there. -/
theorem emission_overwrites (hlaminar : Laminar edits)
    (hplaced : ∀ s ∈ spans edits, s.start ≤ s.stop) (hinside : ∀ s ∈ spans edits, ¬ s.Inside p)
    (hown : (spans edits).Pairwise fun a b => a.start = p → p < a.stop → b.start ≠ p) :
    emission p (edits.filter fun e => e.pos = p ∧ e.priority = 2) =
      replacedAt (maximalOverwrites edits) p := by
  induction edits with
  | nil => rfl
  | cons edit later ih =>
    cases edit with
    | insertBefore pos text =>
      rw [filter_cons_of_neg (by simp [Edit.priority])]
      exact ih hlaminar hplaced hinside hown
    | insertAfter pos text =>
      rw [filter_cons_of_neg (by simp [Edit.priority])]
      exact ih hlaminar hplaced hinside hown
    | overwrite start stop' text =>
      have hall : ∀ s ∈ spans later, s ∈ spans (Edit.overwrite start stop' text :: later) :=
        fun s hs => mem_cons_of_mem _ hs
      have hhead := (pairwise_cons.mp hown).1
      have hrest := ih (laminar_tail hlaminar) (fun s hs => hplaced s (hall s hs))
        (fun s hs => hinside s (hall s hs)) (pairwise_cons.mp hown).2
      by_cases hstart : start = p
      · subst hstart
        have hle : start ≤ stop' := hplaced ⟨start, stop'⟩ mem_cons_self
        -- it starts here, so no later overwrite overlaps it
        have hmaximal : maximalOverwrites (Edit.overwrite start stop' text :: later) =
            (⟨start, stop'⟩, text) :: maximalOverwrites later := by
          rw [maximalOverwrites, if_pos]
          rw [all_eq_true]
          intro s hs
          exact decide_eq_true (disjoint_later rfl hle
            ((pairwise_cons.mp hlaminar).1 s hs) (hinside s (hall s hs))
            (fun hcovers => hhead s hs rfl hcovers))
        rw [filter_cons_of_pos (by simp [Edit.pos, Edit.priority]), emission, hmaximal,
          hrest]
        simp only [replacedAt, flatMap_cons, stop, Edit.text]
        by_cases hcovers : start < stop'
        · have hnone : ∀ o ∈ maximalOverwrites later, o.1.start ≠ start := fun o ho =>
            hhead o.1 (span_of_mem_maximal ho) rfl hcovers
          have hempty : ∀ q : ℕ → Prop, [DecidablePred q] → (maximalOverwrites later).flatMap
              (fun o => if o.1.start = start ∧ q o.1.stop then o.2 else []) = [] := by
            intro q _
            rw [flatMap_eq_nil_iff]
            intro o ho
            rw [if_neg fun h => hnone o ho h.1]
          rw [hempty (· ≤ start), hempty (start < ·)]
          simp [hcovers, not_le.mpr hcovers]
        · simp [hcovers, Nat.le_of_not_lt hcovers]
      · rw [filter_cons_of_neg (by simp [Edit.pos, hstart]), hrest, maximalOverwrites]
        split
        · simp [replacedAt, hstart]
        · rfl

/-! ### Buffers whose overwrites have their starts to themselves -/

theorem sweptAt_eq (hlaminar : Laminar edits) (hplaced : WellPlaced source edits)
    (hown : OwnStarts edits) (p : ℕ) : sweptAt edits p = standingAt edits p := by
  rw [sweptAt, standingAt, any_inside hlaminar]
  by_cases hinside : (edits.any fun e => decide (e.pos < p ∧ p < stop e)) = true
  · rw [if_pos hinside, if_pos hinside]
  · have hnone : ∀ s ∈ spans edits, ¬ s.Inside p := by
      intro s hs h
      obtain ⟨text, he⟩ := mem_spans.mp hs
      exact hinside (any_eq_true.mpr ⟨_, he, decide_eq_true h⟩)
    rw [if_neg hinside, if_neg hinside, emission_groupAt, emission_overwrites hlaminar ?_ hnone ?_]
    · intro s hs
      obtain ⟨text, he⟩ := mem_spans.mp hs
      exact ((hplaced _ he).2 s rfl).1
    · refine hown.imp ?_
      intro a b hab hstart hcovers hsame
      obtain ⟨c, hc, hinside'⟩ := hab (hstart.trans hsame.symm) (hstart ▸ hcovers)
      exact hnone c hc (hstart ▸ hinside')

theorem toString_expected (hplaced : WellPlaced source edits) (hlaminar : Laminar edits)
    (hown : OwnStarts edits) :
    (mk source edits).toString = some (expected source edits) := by
  rw [toString_eq hplaced (laminar_nested hlaminar), expected]
  congr 1
  apply flatMap_congr
  intro p _
  rw [sweptAt_eq hlaminar hplaced hown, keptAt_eq hlaminar]

/-! ### Buffers where an overwrite is lost -/

/-- The edits with the same places but without texts. -/
theorem blank_text (e : Edit) : (blank e).text = [] := by
  cases e <;> rfl

theorem blank_blank (e : Edit) : blank (blank e) = blank e := by
  cases e <;> rfl

theorem map_blank_blank (es : List Edit) : (es.map blank).map blank = es.map blank := by
  rw [map_map]
  exact congrArg (List.map · es) (funext blank_blank)

theorem overwritten_blank (e : Edit) : overwritten (blank e) = overwritten e := by
  cases e <;> rfl

theorem spans_samePlaces {edits' : List Edit} (h : SamePlaces edits edits') :
    spans edits = spans edits' := by
  have hread : ∀ es : List Edit, spans es = (es.map blank).filterMap overwritten := by
    intro es
    rw [filterMap_map, spans]
    exact congrArg (List.filterMap · es) (funext fun e => (overwritten_blank e).symm)
  rw [hread, hread, show edits.map blank = edits'.map blank from h]

theorem wellPlaced_samePlaces {edits' : List Edit} (h : SamePlaces edits edits')
    (hplaced : WellPlaced source edits) : WellPlaced source edits' := by
  intro e' he'
  have hmem : blank e' ∈ edits.map blank := by
    rw [show edits.map blank = edits'.map blank from h]
    exact mem_map_of_mem he'
  obtain ⟨e, he, heq⟩ := mem_map.mp hmem
  have hpos : ∀ f : Edit, (blank f).pos = f.pos := by
    intro f
    cases f <;> rfl
  have hone := hplaced e he
  rw [← hpos e, ← overwritten_blank e, heq, hpos, overwritten_blank] at hone
  exact hone

/-- Some overwrite of a byte is followed by the last overwrite with its
start, and nothing goes around that start. -/
theorem lost_of_not_ownStarts (h : ¬ OwnStarts edits) :
    ∃ before p last text later, edits = before ++ .overwrite p last text :: later ∧
      (∃ a ∈ spans before, a.start = p ∧ p < a.stop) ∧ (∀ s ∈ spans later, s.start ≠ p) ∧
      ∀ s ∈ spans edits, ¬ s.Inside p := by
  rw [OwnStarts, pairwise_iff_forall_sublist] at h
  push Not at h
  obtain ⟨a, b, hsub, hstart, hcovers, hnone⟩ := h
  obtain ⟨r₁, r₂, hsplit, ha, hb⟩ := cons_sublist_iff.mp hsub
  obtain ⟨l₁, l₂, rfl, hl₁, hl₂⟩ := filterMap_eq_append_iff.mp hsplit
  have hlast : ∀ es : List Edit, (∃ s ∈ spans es, s.start = a.start) →
      ∃ before last text later, es = before ++ .overwrite a.start last text :: later ∧
        ∀ s ∈ spans later, s.start ≠ a.start := by
    intro es
    induction es with
    | nil =>
      rintro ⟨s, hs, -⟩
      cases hs
    | cons e rest ih =>
      rintro ⟨s, hs, hsame⟩
      by_cases hrest : ∃ s ∈ spans rest, s.start = a.start
      · obtain ⟨before, last, text, later, rfl, hlater⟩ := ih hrest
        exact ⟨e :: before, last, text, later, rfl, hlater⟩
      · obtain ⟨text, he⟩ := mem_spans.mp hs
        rcases mem_cons.mp he with rfl | he
        · exact ⟨[], s.stop, text, rest, by rw [hsame]; rfl, fun t ht heq => hrest ⟨t, ht, heq⟩⟩
        · exact absurd ⟨s, mem_spans.mpr ⟨text, he⟩, hsame⟩ hrest
  have hb' : b ∈ spans l₂ := by
    rw [spans, hl₂]
    exact singleton_sublist.mp hb
  obtain ⟨before, last, text, later, rfl, hlater⟩ := hlast l₂ ⟨b, hb', hstart.symm⟩
  refine ⟨l₁ ++ before, a.start, last, text, later, by simp, ⟨a, ?_, rfl, hcovers⟩, hlater, hnone⟩
  rw [spans, filterMap_append, hl₁]
  exact mem_append_left _ ha

/-- The edits without texts, but for the one overwrite that is lost. -/
def probe (before : List Edit) (p last : ℕ) (later : List Edit) : List Edit :=
  before.map blank ++ .overwrite p last [0] :: later.map blank

theorem samePlaces_probe (before : List Edit) (p last : ℕ) (text : Bytes) (later : List Edit) :
    SamePlaces (before ++ .overwrite p last text :: later) (probe before p last later) := by
  rw [SamePlaces, probe, map_append, map_append, map_cons, map_cons,
    map_blank_blank, map_blank_blank]
  rfl

theorem emission_nil (es : List Edit) (h : ∀ e ∈ es, e.text = []) : emission p es = [] := by
  induction es with
  | nil => rfl
  | cons e rest ih =>
    rw [emission, h e mem_cons_self, ih fun f hf => h f (mem_cons_of_mem e hf)]
    exact ite_self _

variable {before later : List Edit}

theorem sweptAt_probe {p last : ℕ} (hfirst : ∃ a ∈ spans before, a.start = p ∧ p < a.stop) (q : ℕ) :
    sweptAt (probe before p last later) q = [] := by
  have hblank : ∀ es : List Edit, ∀ f : Edit → Bool, ∀ e ∈ (es.map blank).filter f, e.text = [] := by
    intro es f e he
    obtain ⟨g, -, rfl⟩ := mem_map.mp (mem_filter.mp he).1
    exact blank_text g
  have hinserted : ∀ k < 2, ∀ e ∈ (probe before p last later).filter
      (fun e => e.pos = q ∧ e.priority = k), e.text = [] := by
    intro k hk e he
    have hne : ¬ 2 = k := by omega
    rw [probe, filter_append, filter_cons_of_neg (by simp [Edit.priority, hne])] at he
    rcases mem_append.mp he with he | he
    · exact hblank _ _ e he
    · exact hblank _ _ e he
  have hoverwrites : emission q ((probe before p last later).filter
      fun e => e.pos = q ∧ e.priority = 2) = [] := by
    by_cases hq : q = p
    · subst hq
      rw [probe, filter_append, emission_covered]
      · exact emission_nil _ (hblank before _)
      · obtain ⟨a, ha, hstart, hcovers⟩ := hfirst
        obtain ⟨text, he⟩ := mem_spans.mp ha
        refine ⟨_, mem_filter.mpr ⟨mem_map_of_mem he, ?_⟩, hcovers⟩
        simp [blank, Edit.pos, Edit.priority, hstart]
    · apply emission_nil
      intro e he
      have hne : ¬ p = q := fun heq => hq heq.symm
      rw [probe, filter_append, filter_cons_of_neg (by simp [Edit.pos, hne])] at he
      rcases mem_append.mp he with he | he
      · exact hblank _ _ e he
      · exact hblank _ _ e he
  have hopen : ∀ k < 2, ∀ e ∈ (probe before p last later).filter
      (fun e => e.pos = q ∧ e.priority = k), ¬ q < stop e := by
    intro k hk e he
    have h := of_decide_eq_true (mem_filter.mp he).2
    exact not_covers_of_priority h.1 (by omega)
  have hnil : ∀ es : List Edit, (∀ e ∈ es, e.text = []) → es.flatMap Edit.text = [] := fun es h =>
    flatMap_eq_nil_iff.mpr h
  rw [sweptAt, groupAt, emission_append _ _ (hopen 0 (by omega)),
    emission_append _ _ (hopen 1 (by omega)), hoverwrites, hnil _ (hinserted 0 (by omega)),
    hnil _ (hinserted 1 (by omega))]
  exact ite_self _

theorem mem_maximal_append {p last : ℕ} {text : Bytes}
    (h : ∀ s ∈ spans later, (Span.mk p last).Disjoint s) :
    (⟨p, last⟩, text) ∈ maximalOverwrites (before ++ .overwrite p last text :: later) := by
  induction before with
  | nil =>
    rw [nil_append, maximalOverwrites, if_pos]
    · exact mem_cons_self
    · exact all_eq_true.mpr fun s hs => decide_eq_true (h s hs)
  | cons e rest ih => exact mem_maximal_cons ih

theorem laminar_cons_of_append (h : Laminar (before ++ later)) : Laminar later := by
  rw [Laminar, spans, filterMap_append] at h
  exact (pairwise_append.mp h).2.1

theorem length_flatMap_append (f g : ℕ → Bytes) (ps : List ℕ) :
    (ps.flatMap fun p => f p ++ g p).length = (ps.flatMap f).length + (ps.flatMap g).length := by
  induction ps with
  | nil => rfl
  | cons p rest ih =>
    simp only [flatMap_cons, length_append] at ih ⊢
    omega

/-- Texts that show the loss. -/
theorem toString_ne_expected {p last : ℕ} {text : Bytes}
    (hplaced : WellPlaced source (before ++ .overwrite p last text :: later))
    (hlaminar : Laminar (before ++ .overwrite p last text :: later))
    (hfirst : ∃ a ∈ spans before, a.start = p ∧ p < a.stop) (hlast : ∀ s ∈ spans later, s.start ≠ p)
    (hinside : ∀ s ∈ spans (before ++ .overwrite p last text :: later), ¬ s.Inside p) :
    (mk source (probe before p last later)).toString ≠
      some (expected source (probe before p last later)) := by
  have hsame := samePlaces_probe before p last text later
  have hspans := spans_samePlaces hsame
  have hlaminar' : Laminar (probe before p last later) := by
    rw [Laminar, ← hspans]
    exact hlaminar
  have hplaced' := wellPlaced_samePlaces hsame hplaced
  have hprobe : Edit.overwrite p last [0] ∈ probe before p last later :=
    mem_append_right _ mem_cons_self
  have hbounds := hplaced' _ hprobe
  have hle := (hbounds.2 ⟨p, last⟩ rfl).1
  -- the expected output has the text of the overwrite that is lost
  have hmaximal : (⟨p, last⟩, [0]) ∈ maximalOverwrites (probe before p last later) := by
    refine mem_maximal_append fun s hs => ?_
    have hs' : s ∈ spans (probe before p last later) := by
      rw [probe, spans, filterMap_append, filterMap_cons]
      exact mem_append_right _ (mem_cons_of_mem _ hs)
    have hpair := (pairwise_cons.mp (laminar_cons_of_append hlaminar')).1 s hs
    refine disjoint_later rfl hle hpair ?_ fun _ => ?_
    · rw [← hspans] at hs'
      exact hinside s hs'
    · refine hlast s ?_
      have hblank : spans (later.map blank) = spans later :=
        spans_samePlaces (map_blank_blank later)
      exact hblank ▸ hs
  have hstanding : 0 ∈ standingAt (probe before p last later) p := by
    have hopen : ((maximalOverwrites (probe before p last later)).any fun o =>
        decide (o.1.Inside p)) = false := by
      rw [any_eq_false]
      intro o ho
      rw [decide_eq_true_eq]
      exact hinside o.1 (hspans ▸ span_of_mem_maximal ho)
    rw [standingAt, hopen]
    refine mem_append_right _ ?_
    rw [replacedAt, mem_append, mem_flatMap, mem_flatMap]
    by_cases hcovers : p < last
    · exact Or.inr ⟨_, hmaximal, by simp [hcovers]⟩
    · exact Or.inl ⟨_, hmaximal, by simp [Nat.le_of_not_lt hcovers]⟩
  have hwritten : (mk source (probe before p last later)).toString =
      some ((List.range (source.length + 1)).flatMap (keptAt source (probe before p last later))) := by
    rw [toString_eq hplaced' (laminar_nested hlaminar')]
    congr 1
    apply flatMap_congr
    intro q _
    rw [sweptAt_probe hfirst, keptAt_eq hlaminar', nil_append]
  rw [hwritten]
  intro heq
  have hlength := congrArg List.length (Option.some.inj heq)
  rw [expected, length_flatMap_append] at hlength
  have hmem : 0 ∈ (List.range (source.length + 1)).flatMap
      (standingAt (probe before p last later)) := by
    refine mem_flatMap.mpr ⟨p, mem_range.mpr ?_, hstanding⟩
    have h := le_of_isCharBoundary hbounds.1
    exact lt_succ_of_le h
  have hpos := length_pos_of_mem hmem
  omega

/-- Whatever the texts of a laminar buffer are, its output is the expected
one exactly when no overwrite of some bytes is recorded before another one
at the same start that nothing goes around. -/
theorem output_iff (source : Bytes) (edits : List Edit) (hplaced : WellPlaced source edits)
    (hlaminar : Laminar edits) :
    (∀ edits', SamePlaces edits edits' →
      (mk source edits').toString = some (expected source edits')) ↔
    OwnStarts edits := by
  constructor
  · intro h
    by_contra hlost
    obtain ⟨before, p, last, text, later, rfl, hfirst, hlast, hinside⟩ := lost_of_not_ownStarts hlost
    exact toString_ne_expected hplaced hlaminar hfirst hlast hinside
      (h _ (samePlaces_probe before p last text later))
  · intro hown edits' hsame
    have hspans := spans_samePlaces hsame
    refine toString_expected (wellPlaced_samePlaces hsame hplaced) ?_ ?_
    · rw [Laminar, ← hspans]
      exact hlaminar
    · rw [OwnStarts, ← hspans]
      exact hown

/-- A nested overwrite behind the start of the one around it, with an
insertion at either end. -/
def nestedEdits : List Edit :=
  [.overwrite 1 2 [88], .insertAfter 4 [46], .insertBefore 0 [40], .overwrite 0 4 [89, 89]]

theorem nestedEdits_output :
    (mk [97, 98, 99, 100] nestedEdits).toString =
      some (expected [97, 98, 99, 100] nestedEdits) :=
  (output_iff [97, 98, 99, 100] nestedEdits (by decide) (by unfold Laminar; decide)).mpr
    (by unfold OwnStarts; decide) nestedEdits rfl

/-- The first two bytes and then all four are overwritten: the output has
the text of the first overwrite. -/
theorem enclosing_text_lost :
    Laminar [.overwrite 0 2 [88], .overwrite 0 4 [89, 89]] ∧
      WellPlaced [97, 98, 99, 100] [.overwrite 0 2 [88], .overwrite 0 4 [89, 89]] ∧
      (mk [97, 98, 99, 100] [.overwrite 0 2 [88], .overwrite 0 4 [89, 89]]).toString ≠
        some (expected [97, 98, 99, 100] [.overwrite 0 2 [88], .overwrite 0 4 [89, 89]]) := by
  have hlaminar : Laminar [.overwrite 0 2 [88], .overwrite 0 4 [89, 89]] := by
    unfold Laminar
    decide
  refine ⟨hlaminar, by decide, ?_⟩
  rw [toString_eq (by decide) (laminar_nested hlaminar)]
  decide

end Vertz.Proofs.EditBuffer
