import Vertz.Native.Compiler.MagicString

/-!
# `Vertz.Spec.EditBuffer`: what the output of an edit buffer should be

The overwrites of a buffer are `Laminar` when any two of them are disjoint,
or nested with the enclosing one recorded later. The maximal ones are then
pairwise disjoint. `expected` goes through the source once: an insertion
stands at its position, unless that lies strictly inside a maximal range;
a maximal range is replaced by its text; every other byte is kept.
-/

namespace Vertz.Spec

open Vertz.Native.Compiler

/-- A half-open range of positions. -/
structure Span where
  start : ℕ
  stop : ℕ
  deriving DecidableEq, Repr

namespace Span

def Disjoint (a b : Span) : Prop := a.stop ≤ b.start ∨ b.stop ≤ a.start

def Within (a b : Span) : Prop := b.start ≤ a.start ∧ a.stop ≤ b.stop

/-- The position lies strictly between the two ends. -/
def Inside (span : Span) (pos : ℕ) : Prop := span.start < pos ∧ pos < span.stop

/-- The byte at the position belongs to the range. -/
def Covers (span : Span) (pos : ℕ) : Prop := span.start ≤ pos ∧ pos < span.stop

instance (a b : Span) : Decidable (a.Disjoint b) :=
  inferInstanceAs (Decidable (a.stop ≤ b.start ∨ b.stop ≤ a.start))

instance (a b : Span) : Decidable (a.Within b) :=
  inferInstanceAs (Decidable (b.start ≤ a.start ∧ a.stop ≤ b.stop))

instance (span : Span) (pos : ℕ) : Decidable (span.Inside pos) :=
  inferInstanceAs (Decidable (span.start < pos ∧ pos < span.stop))

instance (span : Span) (pos : ℕ) : Decidable (span.Covers pos) :=
  inferInstanceAs (Decidable (span.start ≤ pos ∧ pos < span.stop))

end Span

/-- The range of an overwrite. -/
def overwritten : Edit → Option Span
  | .overwrite start stop _ => some ⟨start, stop⟩
  | _ => none

/-- The overwritten ranges, in recording order. -/
def spans (edits : List Edit) : List Span := edits.filterMap overwritten

/-- Any two overwrites are disjoint, or the one recorded later encloses the
other. -/
def Laminar (edits : List Edit) : Prop :=
  (spans edits).Pairwise fun a b => a.Disjoint b ∨ a.Within b

/-- Positions lie in the source, on character boundaries, and a range ends
after it starts. -/
def WellPlaced (source : Bytes) (edits : List Edit) : Prop :=
  ∀ edit ∈ edits, isCharBoundary source edit.pos = true ∧
    ∀ span ∈ overwritten edit, span.start ≤ span.stop ∧ isCharBoundary source span.stop = true

instance (source : Bytes) (edits : List Edit) : Decidable (WellPlaced source edits) :=
  inferInstanceAs (Decidable (∀ edit ∈ edits, _ ∧ ∀ span ∈ overwritten edit, _))

/-- The overwrites that no later one overlaps, with their texts. -/
def maximalOverwrites : List Edit → List (Span × Bytes)
  | [] => []
  | .overwrite start stop text :: later =>
    if (spans later).all fun span => decide ((Span.mk start stop).Disjoint span) then
      (⟨start, stop⟩, text) :: maximalOverwrites later
    else maximalOverwrites later
  | _ :: later => maximalOverwrites later

/-- The insertions at a position, in recording order within each kind. -/
def insertedAt (edits : List Edit) (pos : ℕ) : Bytes :=
  (edits.flatMap fun edit => match edit with
    | .insertBefore p text => if p = pos then text else []
    | _ => []) ++
  edits.flatMap fun edit => match edit with
    | .insertAfter p text => if p = pos then text else []
    | _ => []

/-- The texts of the maximal ranges that start at a position: empty ranges
first, then the one that covers the byte there. -/
def replacedAt (maximal : List (Span × Bytes)) (pos : ℕ) : Bytes :=
  (maximal.flatMap fun o => if o.1.start = pos ∧ o.1.stop ≤ pos then o.2 else []) ++
    maximal.flatMap fun o => if o.1.start = pos ∧ pos < o.1.stop then o.2 else []

/-- What stands in front of the byte at a position. -/
def standingAt (edits : List Edit) (pos : ℕ) : Bytes :=
  let maximal := maximalOverwrites edits
  if maximal.any fun o => decide (o.1.Inside pos) then []
  else insertedAt edits pos ++ replacedAt maximal pos

/-- The byte at a position, unless a maximal range covers it. -/
def keptAt (source : Bytes) (edits : List Edit) (pos : ℕ) : Bytes :=
  if (maximalOverwrites edits).any fun o => decide (o.1.Covers pos) then []
  else (source[pos]?).toList

/-- The source with the edits applied. -/
def expected (source : Bytes) (edits : List Edit) : Bytes :=
  (List.range (source.length + 1)).flatMap fun pos =>
    standingAt edits pos ++ keptAt source edits pos

/-- No overwrite of some bytes is recorded before another overwrite that
starts at the same offset, unless a third one was made around that offset. -/
def OwnStarts (edits : List Edit) : Prop :=
  (spans edits).Pairwise fun a b =>
    a.start = b.start → a.start < a.stop → ∃ c ∈ spans edits, c.Inside a.start

/-- The edit without its text. -/
def blank : Edit → Edit
  | .overwrite start stop _ => .overwrite start stop []
  | .insertBefore pos _ => .insertBefore pos []
  | .insertAfter pos _ => .insertAfter pos []

/-- The same kinds of edits at the same places, with any texts. -/
def SamePlaces (edits edits' : List Edit) : Prop := edits.map blank = edits'.map blank

end Vertz.Spec

/-!
## Ranges of an edit buffer

The ranges a transformed slice is taken of and written back to: those that
no overwrite of the buffer crosses.
-/

namespace Vertz.Spec

open Vertz.Native.Compiler

/-- The overwrites of the buffer are pairwise disjoint. -/
def DisjointOverwrites (edits : List Edit) : Prop := (spans edits).Pairwise Span.Disjoint

/-- The range cuts no overwrite: each one lies outside, within or around
it. -/
def CutsNone (edits : List Edit) (range : Span) : Prop :=
  ∀ span ∈ spans edits, span.Disjoint range ∨ span.Within range ∨ range.Within span

/-- The range with the slice of the buffer written over it. -/
def rewritten (ms : MagicString) (range : Span) (slice : Bytes) : MagicString :=
  ms.overwrite range.start range.stop slice

end Vertz.Spec
