import Mathlib.Data.Nat.Notation

/-!
# `Vertz.Ui.Dialog.DialogStack`: a stack of modal dialogs

What `createDialogStack` closes over is a `DialogStack`, with the
promises it has resolved and the exit animations that run. The elements'
other attributes, the contexts and the handles are left out.

`open` renders the component between writing the top dialog's
`data-state` and pushing the new entry, so it is two actions,
`openDialog` and `mount`: a component may call the stack while it
renders. What an `onAnimationsComplete` callback does is `complete`. It
runs the entry's cleanups first: a cleanup that calls the stack does so
while the entry still waits, like a call before `finished`. In `closeAll`
the cleanups do not call the stack, and components do not throw.
-/

namespace Vertz.Ui.Dialog

/-- The `data-state` attribute of a dialog element. -/
inductive DialogState where
  | opened
  | background
  | closed
  deriving DecidableEq, Repr

inductive DialogResult (R : Type) where
  | ok (data : R)
  | dismissed
  deriving DecidableEq, Repr

structure StackEntry where
  id : ℕ
  state : DialogState
  dismissible : Bool
  settled : Bool
  deriving DecidableEq, Repr

structure DialogStack (R : Type) where
  entries : List StackEntry := []
  nextId : ℕ := 0
  /-- The opens whose component is rendering, the innermost first. -/
  rendering : List (ℕ × Bool) := []
  /-- The exit animations that run, with the result to resolve with. -/
  pending : List (ℕ × DialogResult R) := []
  resolved : List (ℕ × DialogResult R) := []
  deriving DecidableEq, Repr

/-- Write the `data-state` of the last entry. -/
def markTop (state : DialogState) : List StackEntry → List StackEntry
  | [] => []
  | [entry] => [{ entry with state := state }]
  | entry :: entries => entry :: markTop state entries

/-- Settle an entry and set its closed state. -/
def settle (entries : List StackEntry) (id : ℕ) : List StackEntry :=
  entries.map fun entry =>
    if entry.id = id then { entry with state := .closed, settled := true } else entry

namespace DialogStack

variable {R : Type}

def entryOf (stack : DialogStack R) (id : ℕ) : Option StackEntry :=
  stack.entries.find? fun entry => entry.id == id

def openDialog (stack : DialogStack R) (dismissible : Bool) : DialogStack R :=
  { stack with
    entries := markTop .background stack.entries
    nextId := stack.nextId + 1
    rendering := (stack.nextId, dismissible) :: stack.rendering }

def mount (stack : DialogStack R) : DialogStack R :=
  match stack.rendering with
  | [] => stack
  | (id, dismissible) :: rendering =>
    { stack with
      entries := stack.entries ++ [⟨id, .opened, dismissible, false⟩]
      rendering := rendering }

/-- Splice the entry out, reveal the previous one and resolve. -/
def complete (stack : DialogStack R) (id : ℕ) (resolution : DialogResult R) : DialogStack R :=
  { stack with
    entries := markTop .opened (stack.entries.eraseP fun entry => entry.id == id)
    resolved := stack.resolved ++ [(id, resolution)] }

def removeEntry (stack : DialogStack R) (id : ℕ) (resolution : DialogResult R) (animated : Bool) :
    DialogStack R :=
  match stack.entryOf id with
  | none => stack
  | some entry =>
    if entry.settled then stack
    else
      let stack := { stack with entries := settle stack.entries id }
      if animated then { stack with pending := stack.pending ++ [(id, resolution)] }
      else stack.complete id resolution

def closeEntry (stack : DialogStack R) (id : ℕ) (result : R) (animated : Bool) : DialogStack R :=
  stack.removeEntry id (.ok result) animated

def dismissEntry (stack : DialogStack R) (id : ℕ) (animated : Bool) : DialogStack R :=
  stack.removeEntry id .dismissed animated

/-- Whether a click outside the panel dismisses the dialog. -/
def backdropDismisses (stack : DialogStack R) (id : ℕ) : Bool :=
  (stack.entryOf id).any StackEntry.dismissible

/-- Whether Escape dismisses the dialog. -/
def cancelDismisses (stack : DialogStack R) (id : ℕ) : Bool :=
  stack.backdropDismisses id && stack.entries.getLast?.any fun entry => entry.id == id

/-- The loop of `closeAll`, with `i` entries to go. -/
def closeAllFrom (animated : ℕ → Bool) : ℕ → DialogStack R → DialogStack R
  | 0, stack => stack
  | i + 1, stack =>
    match stack.entries[i]? with
    | some entry => closeAllFrom animated i (stack.dismissEntry entry.id (animated entry.id))
    | none => closeAllFrom animated i stack

/-- Dismiss every dialog from the top; `animated` says which elements
have an exit animation. -/
def closeAll (stack : DialogStack R) (animated : ℕ → Bool) : DialogStack R :=
  closeAllFrom animated stack.entries.length stack

/-- The exit animation of an entry is over. -/
def finished (stack : DialogStack R) (id : ℕ) : DialogStack R :=
  match stack.pending.find? fun animation => animation.1 == id with
  | none => stack
  | some (_, resolution) =>
    complete { stack with pending := stack.pending.eraseP fun animation => animation.1 == id }
      id resolution

end DialogStack

/-- What happens to a stack; `animated` says whether the element has an
exit animation. -/
inductive DialogAction (R : Type) where
  | openDialog (dismissible : Bool)
  | mount
  | close (id : ℕ) (result : R) (animated : Bool)
  | backdrop (id : ℕ) (animated : Bool)
  | cancel (id : ℕ) (animated : Bool)
  | closeAll (animated : ℕ → Bool)
  | finished (id : ℕ)

namespace DialogStack

variable {R : Type}

def apply (stack : DialogStack R) : DialogAction R → DialogStack R
  | .openDialog dismissible => stack.openDialog dismissible
  | .mount => stack.mount
  | .close id result animated => stack.closeEntry id result animated
  | .backdrop id animated =>
    if stack.backdropDismisses id then stack.dismissEntry id animated else stack
  | .cancel id animated =>
    if stack.cancelDismisses id then stack.dismissEntry id animated else stack
  | .closeAll animated => stack.closeAll animated
  | .finished id => stack.finished id

end DialogStack

end Vertz.Ui.Dialog
