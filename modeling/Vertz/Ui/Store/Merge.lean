import Mathlib.Data.List.Perm.Subperm
import Vertz.Js

/-!
# `Vertz.Ui.Store.Merge`: merging and comparing entities field by field

`packages/ui/src/store/merge.ts`. An entity is a plain object.
`shallowMerge` lets the incoming fields win, except the undefined ones;
`shallowEqual` counts the fields of both sides and compares the values
of the left side's fields.

`shallowEqual` reads a missing field of the right side as `undefined`,
so it tells two entities apart exactly when they differ provided the
undefined fields of the left side are there on the right
(`shallowEqual_iff`); `shallowMerge` never adds an undefined field
(`Defined.shallowMerge`).
-/

namespace Vertz.Ui.Store

open Vertz.Lib

/-- `Record<string, unknown>`. -/
abbrev Entity := Record Js

/-- `entity[key]`: a missing field reads as `undefined`. -/
def field (entity : Entity) (key : String) : Js := (entity.get? key).getD .undefined

/-- Fields in `incoming` overwrite fields in `existing`; its undefined
values are ignored. -/
def shallowMerge (existing incoming : Entity) : Entity :=
  existing.insertAll (incoming.entries.filter fun e => decide (e.2 ≠ .undefined))

/-- As many fields, and the fields of `a` have the same values in `b`.
Values are compared by content: where the source tells two objects of
one content apart, it writes a value that reads the same. -/
def shallowEqual (a b : Entity) : Bool :=
  a.keys.length == b.keys.length && a.keys.all fun key => field a key == field b key

/-- No field has the value `undefined`. -/
def Defined (entity : Entity) : Prop := ∀ key, entity.get? key ≠ some .undefined

variable {a b : Entity}

theorem Defined.of_same (ha : Defined a) (h : a.Same b) : Defined b :=
  fun key hkey => ha key ((h key).trans hkey)

theorem defined_empty : Defined Record.empty := fun _ h => by cases h

/-- A patch decides the fields it defines and leaves the others. -/
theorem get?_shallowMerge (existing incoming : Entity) (key : String) :
    (shallowMerge existing incoming).get? key =
      ((incoming.get? key).filter fun v => decide (v ≠ .undefined)).or (existing.get? key) := by
  have hread := Record.get?_filterEntries incoming (fun e => decide (e.2 ≠ .undefined)) key
  rw [← hread]
  exact Record.get?_insertAll existing _
    (incoming.filterEntries fun e => decide (e.2 ≠ .undefined)).nodup key

theorem Defined.shallowMerge {existing : Entity} (h : Defined existing) (incoming : Entity) :
    Defined (shallowMerge existing incoming) := by
  intro key hkey
  rw [get?_shallowMerge] at hkey
  cases hin : (incoming.get? key).filter fun v => decide (v ≠ Js.undefined) with
  | none =>
    rw [hin] at hkey
    exact h key hkey
  | some v =>
    rw [hin] at hkey
    have hv := (Option.filter_eq_some_iff.mp hin).2
    exact of_decide_eq_true hv (Option.some.inj hkey)

theorem same_shallowMerge (h : a.Same b) (incoming : Entity) :
    (shallowMerge a incoming).Same (shallowMerge b incoming) := by
  intro key
  rw [get?_shallowMerge, get?_shallowMerge, h key]

/-- Two records with as many keys read the same when every key of the
first reads the same in the second. -/
theorem same_of_length_eq (hlen : a.keys.length = b.keys.length)
    (hread : ∀ key ∈ a.keys, a.get? key = b.get? key) : a.Same b := by
  have hsub : a.keys ⊆ b.keys := by
    intro key hkey
    have hsome := (a.mem_keys_iff).mp hkey
    rw [hread key hkey] at hsome
    exact (b.mem_keys_iff).mpr hsome
  have hperm : a.keys.Perm b.keys :=
    (List.subperm_of_subset a.nodup hsub).perm_of_length_le (le_of_eq hlen.symm)
  intro key
  by_cases hkey : key ∈ a.keys
  · exact hread key hkey
  · have hb : key ∉ b.keys := fun h => hkey (hperm.mem_iff.mpr h)
    have hnone : ∀ r : Entity, key ∉ r.keys → r.get? key = none := by
      intro r hr
      rw [← Option.not_isSome_iff_eq_none, ← r.mem_keys_iff]
      exact hr
    rw [hnone a hkey, hnone b hb]

theorem keys_perm_of_same (h : a.Same b) : a.keys.Perm b.keys := by
  refine (List.perm_ext_iff_of_nodup a.nodup b.nodup).mpr fun key => ?_
  show key ∈ a.keys ↔ key ∈ b.keys
  rw [a.mem_keys_iff, b.mem_keys_iff, h key]

theorem shallowEqual_of_same (h : a.Same b) : shallowEqual a b = true := by
  have hlen : a.keys.length = b.keys.length := (keys_perm_of_same h).length_eq
  have hall : ∀ key ∈ a.keys, (field a key == field b key) = true := by
    intro key _
    rw [field, field, h key]
    exact beq_self_eq_true _
  rw [shallowEqual, hlen, List.all_eq_true.mpr hall]
  simp

/-- The comparison is exact when the fields that are `undefined` on the
left are there on the right. -/
theorem shallowEqual_iff (h : ∀ key, a.get? key = some .undefined → (b.get? key).isSome) :
    shallowEqual a b = true ↔ a.Same b := by
  constructor
  · intro hequal
    rw [shallowEqual, Bool.and_eq_true, List.all_eq_true] at hequal
    refine same_of_length_eq (beq_iff_eq.mp hequal.1) fun key hkey => ?_
    have heq : field a key = field b key := beq_iff_eq.mp (hequal.2 key hkey)
    rw [field, field] at heq
    have hsome := (a.mem_keys_iff).mp hkey
    cases hga : a.get? key with
    | none =>
      rw [hga] at hsome
      cases hsome
    | some v =>
      rw [hga] at heq
      cases hgb : b.get? key with
      | none =>
        rw [hgb] at heq
        rw [show v = Js.undefined from heq] at hga
        have hb := h key hga
        rw [hgb] at hb
        cases hb
      | some w =>
        rw [hgb] at heq
        exact congrArg some heq
  · exact shallowEqual_of_same

/-! ### Layers over a base -/

/-- The base with the layers' patches merged in, in insertion order. -/
def overlay (base : Entity) (layers : Record Entity) : Entity :=
  layers.entries.foldl (fun visible layer => shallowMerge visible layer.2) base

@[simp] theorem overlay_empty (base : Entity) : overlay base Record.empty = base := rfl

theorem Defined.overlay {base : Entity} (h : Defined base) (layers : Record Entity) :
    Defined (overlay base layers) := by
  show Defined (layers.entries.foldl _ base)
  induction layers.entries generalizing base with
  | nil => exact h
  | cons layer rest ih => exact ih (h.shallowMerge layer.2)

theorem same_overlay (h : a.Same b) (layers : Record Entity) :
    (Store.overlay a layers).Same (Store.overlay b layers) := by
  show (layers.entries.foldl _ a).Same (layers.entries.foldl _ b)
  induction layers.entries generalizing a b with
  | nil => exact h
  | cons layer rest ih => exact ih (same_shallowMerge h layer.2)

theorem base_of_overlay_undefined {base : Entity} {layers : Record Entity} {key : String}
    (h : (overlay base layers).get? key = some .undefined) : base.get? key = some .undefined := by
  revert h
  show (layers.entries.foldl _ base).get? key = _ → _
  induction layers.entries generalizing base with
  | nil => exact id
  | cons layer rest ih =>
    intro h
    have hmerge := ih h
    rw [get?_shallowMerge] at hmerge
    cases hin : (layer.2.get? key).filter fun v => decide (v ≠ Js.undefined) with
    | none =>
      rw [hin] at hmerge
      exact hmerge
    | some v =>
      rw [hin] at hmerge
      have hv := (Option.filter_eq_some_iff.mp hin).2
      exact absurd (Option.some.inj hmerge) (of_decide_eq_true hv)

/-- Layers remove no field. -/
theorem isSome_overlay {base : Entity} (layers : Record Entity) {key : String}
    (h : (base.get? key).isSome) : ((overlay base layers).get? key).isSome := by
  show ((layers.entries.foldl _ base).get? key).isSome
  induction layers.entries generalizing base with
  | nil => exact h
  | cons layer rest ih =>
    refine ih ?_
    rw [get?_shallowMerge, Option.isSome_or, h, Bool.or_true]

end Vertz.Ui.Store
