import Mathlib.Data.List.Induction
import Vertz.Lib.Run
import Vertz.Ui.Dialog.DialogStack

/-!
# `Vertz.Proofs.DialogRuns`: runs of a dialog stack

`Kept` is what a dialog stack promises after a run. Its first half, that
every promise is resolved once and with its own request, holds of every
run (`run_ledger`). The other half, which dialogs are shown as open, is
an invariant (`Calm`) of runs whose steps are all `Safe`: the code
writes the state of whatever entry is last, and must not find one that is
leaving there. `run_kept` puts the halves together.

`leaving_dialog_reopened` is a run that closes two dialogs at once and
then finds the lower one open again.
-/

namespace Vertz.Ui.Dialog

open Vertz.Lib List

variable {R : Type}

/-! ### Writing the state of the last entry -/

variable (state : DialogState)

@[simp] theorem markTop_concat (es : List StackEntry) (e : StackEntry) :
    markTop state (es ++ [e]) = es ++ [{ e with state := state }] := by
  induction es with
  | nil => rfl
  | cons a es ih =>
    rw [cons_append, markTop, ih, cons_append]
    simp

/-- A reading of entries that does not see their state sees the same. -/
theorem markTop_map {β : Type} (f : StackEntry → β)
    (hf : ∀ e : StackEntry, f { e with state := state } = f e) (es : List StackEntry) :
    (markTop state es).map f = es.map f := by
  induction es using List.reverseRecOn with
  | nil => rfl
  | append_singleton es e _ => simp [hf]

theorem markTop_filter (p : StackEntry → Bool)
    (hp : ∀ e : StackEntry, p { e with state := state } = p e) (es : List StackEntry) :
    ((markTop state es).filter p).map StackEntry.id = (es.filter p).map StackEntry.id := by
  induction es using List.reverseRecOn with
  | nil => rfl
  | append_singleton es e _ =>
    rw [markTop_concat, filter_append, filter_append, map_append,
      map_append, filter_singleton, filter_singleton, hp]
    cases p e <;> rfl

@[simp] theorem markTop_dropLast (es : List StackEntry) :
    (markTop state es).dropLast = es.dropLast := by
  induction es using List.reverseRecOn with
  | nil => rfl
  | append_singleton es e _ => simp

@[simp] theorem markTop_getLast? (es : List StackEntry) :
    (markTop state es).getLast? = es.getLast?.map fun e => { e with state := state } := by
  induction es using List.reverseRecOn with
  | nil => rfl
  | append_singleton es e _ => simp

/-- Only the last entry can have got the state. -/
theorem mem_markTop {state : DialogState} {es : List StackEntry} {e : StackEntry}
    (h : e ∈ markTop state es) :
    e ∈ es.dropLast ∨ ∃ last, es.getLast? = some last ∧ e = { last with state := state } := by
  induction es using List.reverseRecOn with
  | nil => cases h
  | append_singleton es a _ =>
    rw [markTop_concat, mem_append, mem_singleton] at h
    rw [dropLast_concat, getLast?_concat]
    exact h.imp_right fun h => ⟨a, rfl, h⟩

/-- The ids of some entries, each with whether the dialog was closed. -/
def outline (es : List StackEntry) : List (ℕ × Bool) := es.map fun e => (e.id, e.settled)

namespace StackEntry

/-- The entry once it is settled. -/
def leave (entry : StackEntry) : StackEntry := { entry with state := .closed, settled := true }

end StackEntry

/-! ### One entry of a stack -/

section Split

variable {l r : List StackEntry} {e : StackEntry}

theorem not_mem_of_split (h : ((l ++ e :: r).map StackEntry.id).Nodup) :
    (∀ a ∈ l, a.id ≠ e.id) ∧ ∀ a ∈ r, a.id ≠ e.id := by
  rw [map_append, map_cons, nodup_append] at h
  obtain ⟨_, hr, hdisjoint⟩ := h
  constructor
  · intro a ha
    exact hdisjoint a.id (mem_map_of_mem ha) e.id mem_cons_self
  · intro a ha heq
    exact (nodup_cons.mp hr).1 (heq ▸ mem_map_of_mem ha)

theorem settle_split (h : ((l ++ e :: r).map StackEntry.id).Nodup) :
    settle (l ++ e :: r) e.id = l ++ e.leave :: r := by
  obtain ⟨hl, hr⟩ := not_mem_of_split h
  have hkept : ∀ es : List StackEntry, (∀ a ∈ es, a.id ≠ e.id) → settle es e.id = es := by
    intro es hes
    refine (map_congr_left fun a ha => ?_).trans (map_id es)
    rw [if_neg (hes a ha)]
    rfl
  have happ : settle (l ++ e :: r) e.id = settle l e.id ++ e.leave :: settle r e.id := by
    simp [settle, StackEntry.leave]
  rw [happ, hkept l hl, hkept r hr]

theorem eraseP_split (h : ((l ++ e :: r).map StackEntry.id).Nodup) :
    ((l ++ e :: r).eraseP fun entry => entry.id == e.id) = l ++ r := by
  obtain ⟨hl, _⟩ := not_mem_of_split h
  rw [eraseP_append_right _ (by simpa using hl)]
  simp

theorem find?_split (h : ((l ++ e :: r).map StackEntry.id).Nodup) :
    ((l ++ e :: r).find? fun entry => entry.id == e.id) = some e := by
  obtain ⟨hl, _⟩ := not_mem_of_split h
  rw [find?_append, find?_eq_none.mpr (by simpa using hl)]
  simp

end Split

/-- An entry at a position, with those below and above it. -/
theorem split_at {es : List StackEntry} {i : ℕ} {e : StackEntry} (h : es[i]? = some e) :
    es = es.take i ++ e :: es.drop (i + 1) := by
  obtain ⟨hi, rfl⟩ := List.getElem?_eq_some_iff.mp h
  rw [← drop_eq_getElem_cons hi, take_append_drop]

namespace DialogStack

/-! ### What is asked of a stack -/

/-- Whether a dialog is on the stack and has not been closed. -/
def live (s : DialogStack R) (id : ℕ) : Bool := (s.entryOf id).any fun entry => !entry.settled

def request (s : DialogStack R) (id : ℕ) (result : DialogResult R) : List (ℕ × DialogResult R) :=
  if s.live id then [(id, result)] else []

/-- The dialogs of a list that have not been closed, each dismissed. -/
def dismissals (dialogs : List (ℕ × Bool)) : List (ℕ × DialogResult R) :=
  dialogs.filterMap fun (id, settled) => if settled then none else some (id, .dismissed)

/-- The dialogs an action closes or dismisses, each with the result its
promise is then owed. -/
def requests (s : DialogStack R) : DialogAction R → List (ℕ × DialogResult R)
  | .close id result _ => s.request id (.ok result)
  | .backdrop id _ => if s.backdropDismisses id then s.request id .dismissed else []
  | .cancel id _ => if s.cancelDismisses id then s.request id .dismissed else []
  | .closeAll _ => dismissals (outline s.entries).reverse
  | _ => []

/-- What is asked in the course of a run. -/
def asked (s : DialogStack R) : List (DialogAction R) → List (ℕ × DialogResult R)
  | [] => []
  | a :: as => s.requests a ++ (s.apply a).asked as

/-! ### The promises -/

/-- Every dialog is rendering, on the stack or resolved; the promises
resolved and those that wait for an animation are what was asked for, and
an animation runs for each settled entry. -/
structure Ledger (s : DialogStack R) (asked : List (ℕ × DialogResult R)) : Prop where
  accounted : (s.rendering.map Prod.fst ++ s.entries.map StackEntry.id ++
    s.resolved.map Prod.fst).Perm (List.range s.nextId)
  answered : (s.resolved ++ s.pending).Perm asked
  leaving : ((s.entries.filter StackEntry.settled).map StackEntry.id).Perm
    (s.pending.map Prod.fst)

namespace Ledger

variable {s : DialogStack R} {asked : List (ℕ × DialogResult R)}

theorem ids_nodup (h : Ledger s asked) : (s.entries.map StackEntry.id).Nodup := by
  have hnodup := h.accounted.nodup_iff.mpr nodup_range
  rw [nodup_append, nodup_append] at hnodup
  exact hnodup.1.2.1

theorem init : Ledger ({} : DialogStack R) [] := ⟨.refl _, .refl _, .refl _⟩

theorem openDialog (h : Ledger s asked) (dismissible : Bool) :
    Ledger (s.openDialog dismissible) asked where
  accounted := by
    show ((s.nextId :: s.rendering.map Prod.fst) ++
      (markTop .background s.entries).map StackEntry.id ++ s.resolved.map Prod.fst).Perm _
    rw [markTop_map _ _ (fun _ => rfl), cons_append, cons_append]
    show List.Perm _ (List.range (s.nextId + 1))
    rw [range_succ]
    exact (h.accounted.cons s.nextId).trans (perm_append_singleton _ _).symm
  answered := h.answered
  leaving := by
    show (((markTop .background s.entries).filter StackEntry.settled).map StackEntry.id).Perm _
    rw [markTop_filter _ _ (fun _ => rfl)]
    exact h.leaving

theorem mount (h : Ledger s asked) : Ledger s.mount asked := by
  cases hr : s.rendering with
  | nil =>
    have hsame : s.mount = s := by rw [DialogStack.mount, hr]
    rwa [hsame]
  | cons first rendering =>
    obtain ⟨id, dismissible⟩ := first
    have hmount : s.mount = { s with
        entries := s.entries ++ [⟨id, .opened, dismissible, false⟩]
        rendering := rendering } := by rw [DialogStack.mount, hr]
    rw [hmount]
    refine ⟨?_, h.answered, ?_⟩
    · have hacc := h.accounted
      rw [hr, map_cons, cons_append] at hacc
      refine List.Perm.trans ?_ hacc
      show (rendering.map Prod.fst ++ (s.entries ++ [_]).map StackEntry.id ++ _).Perm _
      rw [map_append, ← append_assoc, append_assoc _ _ (s.resolved.map Prod.fst),
        cons_append]
      exact perm_middle
    · show (((s.entries ++ [_]).filter StackEntry.settled).map StackEntry.id).Perm _
      rw [filter_append]
      simpa using h.leaving

end Ledger

/-! ### Removing an entry -/

section Remove

variable {s : DialogStack R} {l r : List StackEntry} {e : StackEntry}

theorem removeEntry_split (hnodup : (s.entries.map StackEntry.id).Nodup)
    (hsplit : s.entries = l ++ e :: r) (result : DialogResult R) (animated : Bool) :
    s.removeEntry e.id result animated =
      if e.settled then s
      else if animated then
        { s with entries := l ++ e.leave :: r, pending := s.pending ++ [(e.id, result)] }
      else
        { s with
          entries := markTop .opened (l ++ r)
          resolved := s.resolved ++ [(e.id, result)] } := by
  rw [hsplit] at hnodup
  have hleave : ((l ++ e.leave :: r).map StackEntry.id).Nodup := by
    rw [map_append, map_cons] at hnodup ⊢
    exact hnodup
  have herase : ((l ++ e.leave :: r).eraseP fun entry => entry.id == e.id) = l ++ r :=
    eraseP_split hleave
  simp only [removeEntry, entryOf, complete, hsplit, find?_split hnodup, settle_split hnodup,
    herase]

theorem removeEntry_absent {id : ℕ} (h : s.entryOf id = none) (result : DialogResult R)
    (animated : Bool) : s.removeEntry id result animated = s := by
  rw [removeEntry, h]

theorem entryOf_split {id : ℕ} (h : s.entryOf id = some e) :
    e.id = id ∧ ∃ l r, s.entries = l ++ e :: r := by
  have hid : e.id = id := by simpa using find?_some h
  exact ⟨hid, append_of_mem (mem_of_find?_eq_some h)⟩

theorem live_split (hnodup : (s.entries.map StackEntry.id).Nodup)
    (hsplit : s.entries = l ++ e :: r) : s.live e.id = !e.settled := by
  rw [hsplit] at hnodup
  rw [live, entryOf, hsplit, find?_split hnodup]
  rfl

/-- An entry that is spliced out is accounted for by its result. -/
theorem accounted_reveal {before : List ℕ} {resolved : List (ℕ × DialogResult R)} {ids : List ℕ}
    (result : DialogResult R)
    (h : (before ++ (l ++ e :: r).map StackEntry.id ++ resolved.map Prod.fst).Perm ids) :
    (before ++ (markTop .opened (l ++ r)).map StackEntry.id ++
      (resolved ++ [(e.id, result)]).map Prod.fst).Perm ids := by
  rw [markTop_map _ _ (fun _ => rfl)]
  refine List.Perm.trans ?_ h
  simp only [map_append, map_cons, map_nil, append_assoc]
  refine (List.Perm.refl _).append ((List.Perm.refl _).append ?_)
  rw [cons_append, ← append_assoc]
  exact perm_append_singleton _ _

theorem Ledger.removeEntry {asked : List (ℕ × DialogResult R)} (h : Ledger s asked) (id : ℕ)
    (result : DialogResult R) (animated : Bool) :
    Ledger (s.removeEntry id result animated) (asked ++ s.request id result) := by
  cases hentry : s.entryOf id with
  | none =>
    have hlive : s.live id = false := by rw [live, hentry]; rfl
    rw [removeEntry_absent hentry, request, hlive]
    simpa using h
  | some e =>
    obtain ⟨rfl, l, r, hsplit⟩ := entryOf_split hentry
    rw [removeEntry_split h.ids_nodup hsplit, request, live_split h.ids_nodup hsplit]
    have hacc := h.accounted
    have hleaving := h.leaving
    rw [hsplit] at hacc
    rw [hsplit, filter_append] at hleaving
    cases hsettled : e.settled with
    | true => simpa using h
    | false =>
      rw [filter_cons_of_neg (by simp [hsettled]), map_append] at hleaving
      cases animated with
      | true =>
        refine ⟨?_, ?_, ?_⟩
        · show (_ ++ (l ++ e.leave :: r).map StackEntry.id ++ _).Perm _
          rw [map_append, map_cons] at hacc ⊢
          exact hacc
        · show (s.resolved ++ (s.pending ++ [(e.id, result)])).Perm _
          rw [← append_assoc]
          exact h.answered.append_right _
        · show (((l ++ e.leave :: r).filter StackEntry.settled).map StackEntry.id).Perm
            ((s.pending ++ [(e.id, result)]).map Prod.fst)
          rw [filter_append, filter_cons_of_pos rfl, map_append,
            map_cons, map_append, map_singleton]
          exact perm_middle.trans
            ((hleaving.cons e.id).trans (perm_append_singleton _ _).symm)
      | false =>
        refine ⟨?_, ?_, ?_⟩
        · exact accounted_reveal result hacc
        · show (s.resolved ++ [(e.id, result)] ++ s.pending).Perm _
          rw [append_assoc]
          refine List.Perm.trans ?_ (h.answered.append_right _)
          rw [append_assoc]
          exact (List.Perm.refl _).append perm_append_comm
        · show (((markTop .opened (l ++ r)).filter StackEntry.settled).map
            StackEntry.id).Perm _
          rw [markTop_filter _ _ (fun _ => rfl), filter_append, map_append]
          exact hleaving

/-- The completion of an animation that runs. -/
theorem finished_split {asked : List (ℕ × DialogResult R)} (h : Ledger s asked) {id : ℕ}
    (hid : id ∈ s.pending.map Prod.fst) :
    ∃ l e r result p q, s.entries = l ++ e :: r ∧ e.id = id ∧ e.settled = true ∧
      s.pending = p ++ (id, result) :: q ∧
      s.finished id = { s with
        entries := markTop .opened (l ++ r)
        pending := p ++ q
        resolved := s.resolved ++ [(id, result)] } := by
  have hfound : (s.pending.find? fun animation => animation.1 == id).isSome = true := by
    obtain ⟨animation, ha, rfl⟩ := mem_map.mp hid
    exact find?_isSome.mpr ⟨animation, ha, by simp⟩
  obtain ⟨⟨i, result⟩, hfind⟩ := Option.isSome_iff_exists.mp hfound
  have hfirst := find?_eq_some_iff_append.mp hfind
  obtain ⟨hi, p, q, hpending, hp⟩ := hfirst
  obtain rfl : i = id := by simpa using hi
  have herase : (s.pending.eraseP fun animation => animation.1 == i) = p ++ q := by
    rw [hpending, eraseP_append_right _ (by simpa using hp)]
    simp
  obtain ⟨e, he, rfl⟩ := mem_map.mp (h.leaving.mem_iff.mpr hid)
  rw [mem_filter] at he
  obtain ⟨l, r, hsplit⟩ := append_of_mem he.1
  have hnodup := h.ids_nodup
  rw [hsplit] at hnodup
  refine ⟨l, e, r, result, p, q, hsplit, rfl, he.2, hpending, ?_⟩
  rw [finished, hfind]
  simp only [complete, hsplit, eraseP_split hnodup, herase]

theorem finished_absent {id : ℕ} (h : id ∉ s.pending.map Prod.fst) : s.finished id = s := by
  have hnone : (s.pending.find? fun animation => animation.1 == id) = none := by
    rw [find?_eq_none]
    intro animation ha heq
    exact h (mem_map.mpr ⟨animation, ha, by simpa using heq⟩)
  rw [finished, hnone]

theorem Ledger.finished {asked : List (ℕ × DialogResult R)} (h : Ledger s asked) (id : ℕ) :
    Ledger (s.finished id) asked := by
  by_cases hid : id ∈ s.pending.map Prod.fst
  · obtain ⟨l, e, r, result, p, q, hsplit, rfl, hsettled, hpending, hfinished⟩ :=
      finished_split h hid
    have hacc := h.accounted
    have hanswered := h.answered
    have hleaving := h.leaving
    rw [hsplit] at hacc
    rw [hpending] at hanswered
    rw [hsplit, hpending, filter_append, filter_cons_of_pos hsettled, map_append,
      map_cons, map_append, map_cons] at hleaving
    rw [hfinished]
    refine ⟨accounted_reveal result hacc, ?_, ?_⟩
    · show (s.resolved ++ [(e.id, result)] ++ (p ++ q)).Perm _
      refine List.Perm.trans ?_ hanswered
      rw [append_assoc]
      refine (List.Perm.refl _).append ?_
      exact (@perm_middle _ _ p _).symm
    · show (((markTop .opened (l ++ r)).filter StackEntry.settled).map StackEntry.id).Perm
        ((p ++ q).map Prod.fst)
      rw [markTop_filter _ _ (fun _ => rfl), filter_append, map_append, map_append]
      exact List.Perm.cons_inv ((perm_middle.symm.trans hleaving).trans perm_middle)
  · rwa [finished_absent hid]

theorem removeEntry_below (hnodup : (s.entries.map StackEntry.id).Nodup)
    (hsplit : s.entries = l ++ e :: r) (result : DialogResult R) (animated : Bool) :
    outline ((s.removeEntry e.id result animated).entries.take l.length) = outline l := by
  have htake : ∀ (state : DialogState) (r : List StackEntry),
      outline ((markTop state (l ++ r)).take l.length) = outline l := by
    intro state r
    rw [outline, map_take, markTop_map _ _ (fun _ => rfl), ← map_take, take_left]
    rfl
  rw [removeEntry_split hnodup hsplit]
  cases e.settled with
  | true => simp [hsplit]
  | false =>
    cases animated with
    | true => simp
    | false => exact htake .opened r

theorem Ledger.closeAllFrom (animated : ℕ → Bool) (i : ℕ) {s : DialogStack R}
    {asked : List (ℕ × DialogResult R)} (h : Ledger s asked) :
    Ledger (closeAllFrom animated i s)
      (asked ++ dismissals (outline (s.entries.take i)).reverse) := by
  induction i generalizing s asked with
  | zero =>
    rw [take_zero]
    exact (append_nil asked).symm ▸ h
  | succ i ih =>
    rw [DialogStack.closeAllFrom]
    cases hi : s.entries[i]? with
    | none =>
      rw [getElem?_eq_none_iff] at hi
      have hrest := ih h
      rw [take_of_length_le hi] at hrest
      rw [take_of_length_le (by omega)]
      exact hrest
    | some e =>
      have hsplit := split_at hi
      have hlength : (s.entries.take i).length = i := by
        rw [length_take]
        have := (List.getElem?_eq_some_iff.mp hi).1
        omega
      have hrest := ih (h.removeEntry e.id .dismissed (animated e.id))
      have hbelow := removeEntry_below h.ids_nodup hsplit (.dismissed : DialogResult R)
        (animated e.id)
      rw [hlength] at hbelow
      rw [hbelow, append_assoc] at hrest
      have hrequests : dismissals (outline (s.entries.take (i + 1))).reverse
          = s.request e.id .dismissed ++ dismissals (outline (s.entries.take i)).reverse := by
        rw [take_add_one, hi, outline, map_append, reverse_append, request,
          live_split h.ids_nodup hsplit]
        cases hsettled : e.settled <;> simp [dismissals, outline, hsettled]
      rw [hrequests]
      exact hrest

theorem Ledger.apply {asked : List (ℕ × DialogResult R)} (h : Ledger s asked)
    (a : DialogAction R) : Ledger (s.apply a) (asked ++ s.requests a) := by
  cases a with
  | openDialog dismissible => exact (append_nil asked).symm ▸ h.openDialog dismissible
  | mount => exact (append_nil asked).symm ▸ h.mount
  | close id result animated => exact h.removeEntry id (.ok result) animated
  | backdrop id animated =>
    rw [DialogStack.apply, requests]
    split
    · exact h.removeEntry id .dismissed animated
    · simpa using h
  | cancel id animated =>
    rw [DialogStack.apply, requests]
    split
    · exact h.removeEntry id .dismissed animated
    · simpa using h
  | closeAll animated =>
    have hall := h.closeAllFrom animated s.entries.length
    rwa [take_length] at hall
  | finished id => exact (append_nil asked).symm ▸ h.finished id

/-- What a run resolves is what it was asked for, whatever the order. -/
theorem run_ledger {asked : List (ℕ × DialogResult R)} (h : Ledger s asked)
    (as : List (DialogAction R)) : Ledger (as.foldl apply s) (asked ++ s.asked as) := by
  induction as generalizing s asked with
  | nil => exact (append_nil asked).symm ▸ h
  | cons a as ih =>
    have hrest := ih (h.apply a)
    rw [append_assoc] at hrest
    exact hrest

end Remove

/-! ### Which dialogs are open -/

/-- The states of the entries: one that is leaving is closed, and only
the last one is open, as it is unless it is leaving. -/
structure Calm (s : DialogStack R) : Prop where
  closed : ∀ e ∈ s.entries, e.settled = true → e.state = .closed
  onlyTop : ∀ e ∈ s.entries.dropLast, e.state ≠ .opened
  topOpen : s.rendering = [] → ∀ e, s.entries.getLast? = some e → e.settled = false →
    e.state = .opened

/-- The last of some entries is not leaving. -/
def LastLive (es : List StackEntry) : Prop := ∀ e ∈ es.getLast?, e.settled = false

instance : DecidablePred LastLive :=
  fun es => inferInstanceAs (Decidable (∀ e ∈ es.getLast?, e.settled = false))

/-- The entry that is last once a dialog is removed is not leaving. -/
def RevealsLive (s : DialogStack R) (id : ℕ) : Prop :=
  LastLive (s.entries.eraseP fun entry => entry.id == id)

/-- A removal that is completed at once does not reveal a leaving entry. -/
def SafeRemoval (s : DialogStack R) (id : ℕ) (animated : Bool) : Prop :=
  animated = false → s.live id = true → s.RevealsLive id

/-- `closeAll`, on the dialogs from the top: those removed at once are
above all others, and each of them is above one that is not leaving. -/
def SafeCloseAll (animated : ℕ → Bool) : List (ℕ × Bool) → Prop
  | [] => True
  | (id, settled) :: below =>
    if settled = true ∨ animated id = true then
      ∀ dialog ∈ below, dialog.2 = true ∨ animated dialog.1 = true
    else
      (∀ dialog ∈ below.head?, dialog.2 = false) ∧ SafeCloseAll animated below

instance decidableSafeCloseAll (animated : ℕ → Bool) :
    ∀ dialogs, Decidable (SafeCloseAll animated dialogs)
  | [] => isTrue trivial
  | (id, settled) :: below =>
    have := decidableSafeCloseAll animated below
    inferInstanceAs (Decidable (if settled = true ∨ animated id = true then
      ∀ dialog ∈ below, dialog.2 = true ∨ animated dialog.1 = true
    else
      (∀ dialog ∈ below.head?, dialog.2 = false) ∧ SafeCloseAll animated below))

/-- The action does not write the state of a leaving entry, and a dialog
is not mounted next to an open one. -/
def Safe (s : DialogStack R) : DialogAction R → Prop
  | .openDialog _ => LastLive s.entries
  | .mount => s.rendering = [] ∨ ∀ e ∈ s.entries, e.state ≠ .opened
  | .close id _ animated => s.SafeRemoval id animated
  | .backdrop id animated => s.backdropDismisses id = true → s.SafeRemoval id animated
  | .cancel id animated => s.cancelDismisses id = true → s.SafeRemoval id animated
  | .closeAll animated => SafeCloseAll animated (outline s.entries).reverse
  | .finished id => id ∈ s.pending.map Prod.fst → s.RevealsLive id

instance (s : DialogStack R) : DecidablePred (RevealsLive s) :=
  fun id => inferInstanceAs (Decidable (LastLive (s.entries.eraseP fun e => e.id == id)))

instance (s : DialogStack R) (id : ℕ) (animated : Bool) : Decidable (s.SafeRemoval id animated) :=
  inferInstanceAs (Decidable (animated = false → s.live id = true → s.RevealsLive id))

instance (s : DialogStack R) : DecidablePred (Safe s)
  | .openDialog _ => inferInstanceAs (Decidable (LastLive s.entries))
  | .mount => inferInstanceAs (Decidable (s.rendering = [] ∨ ∀ e ∈ s.entries, e.state ≠ .opened))
  | .close id _ animated => inferInstanceAs (Decidable (s.SafeRemoval id animated))
  | .backdrop id animated =>
    inferInstanceAs (Decidable (s.backdropDismisses id = true → s.SafeRemoval id animated))
  | .cancel id animated =>
    inferInstanceAs (Decidable (s.cancelDismisses id = true → s.SafeRemoval id animated))
  | .closeAll animated =>
    inferInstanceAs (Decidable (SafeCloseAll animated (outline s.entries).reverse))
  | .finished id =>
    inferInstanceAs (Decidable (id ∈ s.pending.map Prod.fst → s.RevealsLive id))

section Calm

variable {s t : DialogStack R} {l r : List StackEntry} {e : StackEntry}

theorem calm_init : Calm ({} : DialogStack R) :=
  ⟨fun _ h => (not_mem_nil h).elim, fun _ h => (not_mem_nil h).elim,
    fun _ _ h => nomatch h⟩

theorem Calm.openDialog (h : Calm s) (hlast : LastLive s.entries) (dismissible : Bool) :
    Calm (s.openDialog dismissible) where
  closed := by
    intro e he hsettled
    rcases mem_markTop he with he | ⟨last, htop, rfl⟩
    · exact h.closed e (dropLast_subset _ he) hsettled
    · exact absurd hsettled (by simp [hlast last htop])
  onlyTop := by
    intro e he
    rw [DialogStack.openDialog, markTop_dropLast] at he
    exact h.onlyTop e he
  topOpen := fun hnil => nomatch hnil

theorem Calm.mount (h : Calm s) (hnone : s.rendering = [] ∨ ∀ e ∈ s.entries, e.state ≠ .opened) :
    Calm s.mount := by
  cases hr : s.rendering with
  | nil =>
    have hsame : s.mount = s := by rw [DialogStack.mount, hr]
    rwa [hsame]
  | cons first rendering =>
    obtain ⟨id, dismissible⟩ := first
    have hmount : s.mount = { s with
        entries := s.entries ++ [⟨id, .opened, dismissible, false⟩]
        rendering := rendering } := by rw [DialogStack.mount, hr]
    have hclosed := hnone.resolve_left (by simp [hr])
    rw [hmount]
    refine ⟨?_, ?_, ?_⟩
    · intro e he hsettled
      rcases mem_append.mp he with he | he
      · exact h.closed e he hsettled
      · rw [mem_singleton.mp he] at hsettled
        cases hsettled
    · intro e he
      exact hclosed e (by simpa using he)
    · intro _ e he _
      have hlast : e = ⟨id, .opened, dismissible, false⟩ := by simpa using he.symm
      rw [hlast]

theorem Calm.reveal (h : Calm s) (hsplit : s.entries = l ++ e :: r) (hlast : LastLive (l ++ r))
    (ht : t.entries = markTop .opened (l ++ r)) : Calm t := by
  have hmem : ∀ a ∈ l ++ r, a ∈ s.entries := by
    intro a ha
    rw [hsplit, mem_append, mem_cons]
    rcases mem_append.mp ha with ha | ha
    · exact .inl ha
    · exact .inr (.inr ha)
  refine ⟨?_, ?_, ?_⟩
  · intro a ha hsettled
    rw [ht] at ha
    rcases mem_markTop ha with ha | ⟨last, htop, rfl⟩
    · exact h.closed a (hmem a (dropLast_subset _ ha)) hsettled
    · exact absurd hsettled (by simp [hlast last htop])
  · intro a ha
    rw [ht, markTop_dropLast] at ha
    apply h.onlyTop a
    rw [hsplit]
    rcases eq_nil_or_concat r with rfl | ⟨r, last, rfl⟩
    · rw [append_nil] at ha
      rw [dropLast_concat]
      exact dropLast_subset _ ha
    · rw [concat_eq_append, ← append_assoc, dropLast_concat] at ha
      rw [concat_eq_append, ← cons_append, ← append_assoc, dropLast_concat,
        mem_append, mem_cons]
      rcases mem_append.mp ha with ha | ha
      · exact .inl ha
      · exact .inr (.inr ha)
  · intro _ a ha _
    rw [ht, markTop_getLast?] at ha
    obtain ⟨last, _, rfl⟩ := Option.map_eq_some_iff.mp ha
    rfl

/-- Closing an entry that stays for its animation. -/
theorem Calm.leave (h : Calm s) (hsplit : s.entries = l ++ e :: r)
    (ht : t.entries = l ++ e.leave :: r) (hrendering : t.rendering = s.rendering) : Calm t := by
  refine ⟨?_, ?_, ?_⟩
  · intro a ha hsettled
    rw [ht, mem_append, mem_cons] at ha
    rcases ha with ha | rfl | ha
    · exact h.closed a (by simp [hsplit, ha]) hsettled
    · rfl
    · exact h.closed a (by simp [hsplit, ha]) hsettled
  · intro a ha
    have hbefore := h.onlyTop a
    rw [ht] at ha
    rw [hsplit] at hbefore
    rcases eq_nil_or_concat r with rfl | ⟨r, last, rfl⟩
    · rw [dropLast_concat] at ha hbefore
      exact hbefore ha
    · rw [concat_eq_append, ← cons_append, ← append_assoc,
        dropLast_concat] at ha hbefore
      rcases mem_append.mp ha with ha | ha
      · exact hbefore (mem_append_left _ ha)
      · rcases mem_cons.mp ha with rfl | ha
        · exact fun hopen => nomatch hopen
        · exact hbefore (by simp [ha])
  · intro hnil a ha hlive
    have hbefore := h.topOpen (hrendering ▸ hnil) a
    rw [ht] at ha
    rw [hsplit] at hbefore
    rcases eq_nil_or_concat r with rfl | ⟨r, last, rfl⟩
    · rw [getLast?_concat, Option.some_inj] at ha
      rw [← ha] at hlive
      cases hlive
    · rw [concat_eq_append, ← cons_append, ← append_assoc,
        getLast?_concat] at ha hbefore
      exact hbefore ha hlive

theorem Calm.removeEntry (h : Calm s) (hnodup : (s.entries.map StackEntry.id).Nodup) {id : ℕ}
    {animated : Bool} (hsafe : s.SafeRemoval id animated) (result : DialogResult R) :
    Calm (s.removeEntry id result animated) := by
  cases hentry : s.entryOf id with
  | none => rwa [removeEntry_absent hentry]
  | some e =>
    obtain ⟨rfl, l, r, hsplit⟩ := entryOf_split hentry
    rw [removeEntry_split hnodup hsplit]
    cases hsettled : e.settled with
    | true => exact h
    | false =>
      cases animated with
      | true => exact h.leave hsplit rfl rfl
      | false =>
        have hlive := hsafe rfl (by rw [live_split hnodup hsplit, hsettled]; rfl)
        rw [RevealsLive, hsplit, eraseP_split (hsplit ▸ hnodup)] at hlive
        exact h.reveal hsplit hlive rfl

theorem Calm.finished {asked : List (ℕ × DialogResult R)} (h : Calm s) (hledger : Ledger s asked)
    {id : ℕ} (hsafe : id ∈ s.pending.map Prod.fst → s.RevealsLive id) : Calm (s.finished id) := by
  by_cases hid : id ∈ s.pending.map Prod.fst
  · obtain ⟨l, e, r, result, p, q, hsplit, rfl, _, _, hfinished⟩ := finished_split hledger hid
    have hlive := hsafe hid
    rw [RevealsLive, hsplit, eraseP_split (hsplit ▸ hledger.ids_nodup)] at hlive
    rw [hfinished]
    exact h.reveal hsplit hlive rfl
  · rwa [finished_absent hid]

/-- An entry that stays on the stack reveals none. -/
theorem safeRemoval_of_stays (hnodup : (s.entries.map StackEntry.id).Nodup)
    (hsplit : s.entries = l ++ e :: r) {animated : Bool}
    (hstays : e.settled = true ∨ animated = true) : s.SafeRemoval e.id animated := by
  intro hnow hlive
  rw [live_split hnodup hsplit] at hlive
  rcases hstays with hsettled | hanimated
  · rw [hsettled] at hlive
    cases hlive
  · rw [hnow] at hanimated
    cases hanimated

theorem Calm.closeAllFrom_leaving (animated : ℕ → Bool) (i : ℕ) {s : DialogStack R}
    {asked : List (ℕ × DialogResult R)} (h : Calm s) (hledger : Ledger s asked)
    (hall : ∀ dialog ∈ outline (s.entries.take i), dialog.2 = true ∨ animated dialog.1 = true) :
    Calm (closeAllFrom animated i s) := by
  induction i generalizing s asked with
  | zero => exact h
  | succ i ih =>
    rw [closeAllFrom]
    cases hi : s.entries[i]? with
    | none =>
      refine ih h hledger fun dialog hdialog => hall dialog ?_
      exact map_subset _ (take_subset_take_left _ (by omega)) hdialog
    | some e =>
      have hsplit := split_at hi
      have hlength : (s.entries.take i).length = i := by
        rw [length_take]
        have := (List.getElem?_eq_some_iff.mp hi).1
        omega
      have hbelow := removeEntry_below hledger.ids_nodup hsplit (.dismissed : DialogResult R)
        (animated e.id)
      rw [hlength] at hbelow
      rw [take_add_one, hi, outline, map_append] at hall
      have hkeeps : s.SafeRemoval e.id (animated e.id) :=
        safeRemoval_of_stays hledger.ids_nodup hsplit (hall (e.id, e.settled) (by simp))
      refine ih (h.removeEntry hledger.ids_nodup hkeeps .dismissed)
        (hledger.removeEntry e.id .dismissed (animated e.id)) ?_
      intro dialog hdialog
      rw [dismissEntry, hbelow] at hdialog
      exact hall dialog (mem_append_left _ hdialog)

/-- `closeAll` down to some dialog, those above it removed. -/
theorem Calm.closeAllFrom_top (animated : ℕ → Bool) (i : ℕ) {s : DialogStack R}
    {asked : List (ℕ × DialogResult R)} (h : Calm s) (hledger : Ledger s asked)
    (hlength : s.entries.length = i) (hsafe : SafeCloseAll animated (outline s.entries).reverse) :
    Calm (closeAllFrom animated i s) := by
  induction i generalizing s asked with
  | zero => exact h
  | succ i ih =>
    obtain ⟨l, e, hsplit⟩ : ∃ l e, s.entries = l ++ [e] := by
      rcases eq_nil_or_concat s.entries with hnil | ⟨l, e, hsplit⟩
      · rw [hnil] at hlength
        cases hlength
      · exact ⟨l, e, hsplit.trans concat_eq_append⟩
    have hl : l.length = i := by
      rw [hsplit, length_append, length_singleton] at hlength
      omega
    have hi : s.entries[i]? = some e := by
      rw [hsplit, ← hl]
      exact getElem?_concat_length
    have hnodup := hledger.ids_nodup
    have hledger' := hledger.removeEntry e.id .dismissed (animated e.id)
    rw [hsplit, outline, map_append, map_singleton, reverse_append,
      reverse_singleton, singleton_append, SafeCloseAll] at hsafe
    rw [closeAllFrom, hi]
    by_cases hstays : e.settled = true ∨ animated e.id = true
    · rw [if_pos hstays] at hsafe
      have hkeeps : s.SafeRemoval e.id (animated e.id) :=
        safeRemoval_of_stays hnodup hsplit hstays
      refine (h.removeEntry hnodup hkeeps .dismissed).closeAllFrom_leaving animated i hledger' ?_
      intro dialog hdialog
      have hbelow := removeEntry_below hnodup hsplit (.dismissed : DialogResult R)
        (animated e.id)
      rw [hl] at hbelow
      rw [hbelow] at hdialog
      exact hsafe dialog (mem_reverse.mpr hdialog)
    · rw [if_neg hstays] at hsafe
      obtain ⟨hlast, hrest⟩ := hsafe
      have hlive : LastLive l := by
        intro last htop
        refine hlast (last.id, last.settled) ?_
        rw [head?_reverse, getLast?_map, htop]
        rfl
      have hkeeps : s.SafeRemoval e.id (animated e.id) := by
        intro _ _
        rw [RevealsLive, hsplit, eraseP_split (hsplit ▸ hnodup), append_nil]
        exact hlive
      have hentries : (s.dismissEntry e.id (animated e.id)).entries = markTop .opened l := by
        rw [dismissEntry, removeEntry_split hnodup hsplit,
          if_neg fun hsettled => hstays (.inl hsettled),
          if_neg fun hanimated => hstays (.inr hanimated), append_nil]
      have houtline : outline (markTop .opened l) = outline l :=
        markTop_map _ _ (fun _ => rfl) l
      refine ih (h.removeEntry hnodup hkeeps .dismissed) hledger' ?_ ?_
      · show (s.dismissEntry e.id (animated e.id)).entries.length = i
        rw [hentries, ← hl]
        simpa [outline] using congrArg List.length houtline
      · show SafeCloseAll animated (outline (s.dismissEntry e.id _).entries).reverse
        rw [hentries, houtline]
        exact hrest

/-- A safe action keeps the states of the entries. -/
theorem Calm.apply {asked : List (ℕ × DialogResult R)} (h : Calm s) (hledger : Ledger s asked)
    (a : DialogAction R) (hsafe : s.Safe a) : Calm (s.apply a) := by
  cases a with
  | openDialog dismissible => exact h.openDialog hsafe dismissible
  | mount => exact h.mount hsafe
  | close id result animated => exact h.removeEntry hledger.ids_nodup hsafe (.ok result)
  | backdrop id animated =>
    rw [DialogStack.apply]
    split
    · next hdismisses => exact h.removeEntry hledger.ids_nodup (hsafe hdismisses) .dismissed
    · exact h
  | cancel id animated =>
    rw [DialogStack.apply]
    split
    · next hdismisses => exact h.removeEntry hledger.ids_nodup (hsafe hdismisses) .dismissed
    · exact h
  | closeAll animated => exact h.closeAllFrom_top animated _ hledger rfl hsafe
  | finished id => exact h.finished hledger hsafe

theorem run_calm {asked : List (ℕ × DialogResult R)} (h : Calm s) (hledger : Ledger s asked)
    {as : List (DialogAction R)} (hsafe : Along apply Safe s as) : Calm (as.foldl apply s) := by
  induction as generalizing s asked with
  | nil => exact h
  | cons a as ih => exact ih (h.apply hledger a hsafe.1) (hledger.apply a) hsafe.2

end Calm

/-! ### What a stack promises -/

/-- What a stack promises after a run: its promises are in order, a
dialog that was closed is shown as closed while it is there, and between
calls, with no animation running, the topmost dialog is the open one. -/
structure Kept (s : DialogStack R) (asked : List (ℕ × DialogResult R)) : Prop where
  promises : Ledger s asked
  closed : ∀ e ∈ s.entries, e.settled = true → e.state = .closed
  topmost : s.rendering = [] → s.pending = [] →
    ∀ e ∈ s.entries, e.state = .opened ↔ s.entries.getLast? = some e

theorem Calm.kept {s : DialogStack R} {asked : List (ℕ × DialogResult R)} (h : Calm s)
    (hledger : Ledger s asked) : Kept s asked where
  promises := hledger
  closed := h.closed
  topmost := by
    intro hrendering hpending e he
    have hnone : ∀ a ∈ s.entries, a.settled = false := by
      have hleaving := hledger.leaving
      rw [hpending] at hleaving
      have hnil := map_eq_nil_iff.mp hleaving.eq_nil
      intro a ha
      simpa using filter_eq_nil_iff.mp hnil a ha
    refine ⟨fun hopen => ?_, fun hlast => h.topOpen hrendering e hlast (hnone e he)⟩
    rcases eq_nil_or_concat s.entries with hnil | ⟨l, last, hsplit⟩
    · rw [hnil] at he
      cases he
    · rw [concat_eq_append] at hsplit
      have hbefore := h.onlyTop e
      rw [hsplit, dropLast_concat] at hbefore
      rw [hsplit] at he ⊢
      rcases mem_append.mp he with he | he
      · exact absurd hopen (hbefore he)
      · rw [mem_singleton.mp he, getLast?_concat]

/-- In a run whose steps are all safe a dialog stack keeps its promises
in every state it reaches. -/
theorem run_kept (as : List (DialogAction R)) (hsafe : Along apply Safe {} as) :
    ∀ before, before <+: as →
      Kept (before.foldl apply ({} : DialogStack R)) (asked {} before) := by
  rintro before ⟨rest, rfl⟩
  have hbefore := (along_append.mp hsafe).1
  exact (run_calm calm_init .init hbefore).kept (run_ledger .init before)

/-- Two dialogs that are closed together: the upper one goes at once, the
lower one after its animation. -/
theorem both_closed :
    Kept ([.openDialog true, .mount, .openDialog true, .mount, .close 1 true false,
        .openDialog false, .mount, .closeAll (· == 0), .finished 0].foldl apply
          ({} : DialogStack Bool))
      (asked {} [.openDialog true, .mount, .openDialog true, .mount, .close 1 true false,
        .openDialog false, .mount, .closeAll (· == 0), .finished 0]) :=
  run_kept _ (by decide) _ (prefix_refl _)

/-- Two dialogs that leave together: when the upper one is gone, the
lower one, which was dismissed, is open again. -/
theorem leaving_dialog_reopened :
    ¬ ∀ as : List (DialogAction Bool), ∀ before, before <+: as →
      Kept (before.foldl apply ({} : DialogStack Bool)) (asked {} before) := by
  intro h
  have hkept := h [.openDialog true, .mount, .openDialog true, .mount,
    .closeAll fun _ => true, .finished 1] _ (prefix_refl _)
  have hclosed := hkept.closed ⟨0, .opened, true, true⟩ (by decide) rfl
  cases hclosed

end DialogStack

end Vertz.Ui.Dialog
