import Mathlib.Data.List.Basic

/-!
# `Vertz.Native.Compiler.MagicString`: the edit buffer of the compiler

`src/native/vertz-compiler-core/src/magic_string.rs`. A buffer is the
original source and the edits in the order they were recorded. The output
sorts the edits by position, kind and index and merges them with the
source behind a cursor that only moves forward; `getTransformedSlice` does
the same for a part of the source.

Texts are their UTF-8 bytes and positions are byte offsets. A slice whose
bounds are not character boundaries panics: it is `none`.
-/

namespace Vertz.Native.Compiler

abbrev Bytes := List UInt8

inductive Edit where
  /-- Overwrite a range `[start, stop)` with new text. -/
  | overwrite (start stop : ℕ) (text : Bytes)
  /-- Insert text before position. -/
  | insertBefore (pos : ℕ) (text : Bytes)
  /-- Insert text after position. -/
  | insertAfter (pos : ℕ) (text : Bytes)
  deriving DecidableEq, Repr

structure MagicString where
  original : Bytes
  edits : List Edit
  deriving DecidableEq, Repr

/-- An edit at the position it is applied at, with its index. -/
structure EditEvent where
  edit : Edit
  idx : ℕ
  deriving DecidableEq, Repr

namespace Edit

def pos : Edit → ℕ
  | overwrite start _ _ => start
  | insertBefore pos _ => pos
  | insertAfter pos _ => pos

def text : Edit → Bytes
  | overwrite _ _ text => text
  | insertBefore _ text => text
  | insertAfter _ text => text

/-- At one position insertions come before the overwrite. -/
def priority : Edit → ℕ
  | insertBefore _ _ => 0
  | insertAfter _ _ => 1
  | overwrite _ _ _ => 2

end Edit

/-- The order the events are sorted in: by position, then by kind, then by
index. -/
def EditEvent.le (a b : EditEvent) : Bool :=
  decide (a.edit.pos < b.edit.pos) || (a.edit.pos == b.edit.pos &&
    (decide (a.edit.priority < b.edit.priority) || (a.edit.priority == b.edit.priority &&
      decide (a.idx ≤ b.idx))))

/-- `str::is_char_boundary`. -/
def isCharBoundary (s : Bytes) (index : ℕ) : Bool :=
  index == 0 || index == s.length ||
    (s[index]?).any fun b => decide (b < 128) || decide (192 ≤ b)

/-- `&s[start..stop]`. -/
def sliceOf (s : Bytes) (start stop : ℕ) : Option Bytes :=
  if start ≤ stop ∧ isCharBoundary s start ∧ isCharBoundary s stop then
    some ((s.drop start).take (stop - start))
  else none

/-- What has been written, and the position up to which the source was
read. -/
structure Merge where
  cursor : ℕ
  result : Bytes
  deriving DecidableEq, Repr

/-- Write the source from the cursor up to a position behind it. -/
def Merge.copyTo (original : Bytes) (merge : Merge) (pos : ℕ) : Option Bytes :=
  if merge.cursor < pos then (sliceOf original merge.cursor pos).map (merge.result ++ ·)
  else some merge.result

/-- Merge one event. An event at a position the cursor has already passed
is skipped; `limit` is the end of the source or of the slice. The output
slices the source in front of an `insertAfter` even when nothing is left
to copy (`eager`). -/
def Merge.apply (original : Bytes) (limit : ℕ) (eager : Bool) (merge : Merge) (edit : Edit) :
    Option Merge :=
  if edit.pos < merge.cursor then
    match edit with
    | .overwrite _ stop _ => some { merge with cursor := max merge.cursor stop }
    | _ => some merge
  else
    match edit with
    | .insertBefore pos text =>
      (merge.copyTo original pos).map fun copied => { cursor := pos, result := copied ++ text }
    | .overwrite start stop text =>
      (merge.copyTo original start).map fun copied =>
        { cursor := max merge.cursor stop, result := copied ++ text }
    | .insertAfter pos text =>
      if pos ≤ limit then
        let copied := if eager then (sliceOf original merge.cursor pos).map (merge.result ++ ·)
          else merge.copyTo original pos
        copied.map fun copied => { cursor := pos, result := copied ++ text }
      else some { merge with result := merge.result ++ text }

/-- Merge the events from `start` on and copy the rest up to `limit`. -/
def mergeEvents (original : Bytes) (start limit : ℕ) (eager : Bool) (events : List EditEvent) :
    Option Bytes :=
  let merged := (events.mergeSort EditEvent.le).foldlM
    (fun (merge : Merge) event => merge.apply original limit eager event.edit)
    { cursor := start, result := [] }
  merged.bind fun merge => merge.copyTo original limit

namespace MagicString

def new (source : Bytes) : MagicString where
  original := source
  edits := []

/-- Record an edit. -/
def record (ms : MagicString) (edit : Edit) : MagicString :=
  { ms with edits := ms.edits ++ [edit] }

def overwrite (ms : MagicString) (start stop : ℕ) (text : Bytes) : MagicString :=
  ms.record (.overwrite start stop text)

/-- Insert text immediately before position. -/
def prependLeft (ms : MagicString) (pos : ℕ) (text : Bytes) : MagicString :=
  ms.record (.insertBefore pos text)

/-- Insert text immediately after position. -/
def appendRight (ms : MagicString) (pos : ℕ) (text : Bytes) : MagicString :=
  ms.record (.insertAfter pos text)

/-- The edits with their indices. -/
def events (ms : MagicString) : List EditEvent :=
  ms.edits.zipIdx.map fun e => { edit := e.1, idx := e.2 }

/-- The edit falls within the slice or affects it. -/
def affects (start stop : ℕ) : Edit → Bool
  | .overwrite es ee _ => decide (es < stop) && decide (start < ee)
  | .insertBefore pos _ => decide (start ≤ pos) && decide (pos ≤ stop)
  | .insertAfter pos _ => decide (start ≤ pos) && decide (pos ≤ stop)

/-- A slice of the source with the recorded edits applied. -/
def getTransformedSlice (ms : MagicString) (start stop : ℕ) : Option Bytes :=
  let events := ms.events.filter fun event => affects start stop event.edit
  if events.isEmpty then sliceOf ms.original start stop
  else mergeEvents ms.original start stop false events

/-- The output of the buffer. -/
def toString (ms : MagicString) : Option Bytes :=
  if ms.edits.isEmpty then some ms.original
  else mergeEvents ms.original 0 ms.original.length true ms.events

end MagicString

end Vertz.Native.Compiler
