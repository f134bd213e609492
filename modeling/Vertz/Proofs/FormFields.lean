import Vertz.Ui.Form.FormData

/-!
# `Vertz.Proofs.FormFields`: decoding that stays within its own containers

`Contained` is what is asked of decoding a form: it writes to containers
of its own only, and does not throw. `FieldsStayInside` is the condition
on the fields: each dotted name, followed from what the fields before it
have built, meets no inherited property, no primitive value and no bad
array length, or comes to a denied segment first.
-/

namespace Vertz.Spec

open Vertz.Schema

variable {S : Type}

/-- Every write goes to a container of the result, and nothing throws. -/
def Contained (result : Except (Fault S) Decoded) : Prop := ∃ node, result = .ok node

variable (realm : Realm S)

/-- A name that has left the containers comes to a denied segment, past
properties that exist. -/
def IsDenied : Outside S → List String → Prop
  | _, [] => True
  | outside, segment :: rest =>
    isDangerous segment = true ∨
      rest ≠ [] ∧ ∃ next, propertyOf realm outside segment = .found next ∧ IsDenied next rest

section Path

variable (value : Decoded)

/-- Only a length is assigned to the length of an array. -/
def IsAssignable (node : Decoded) (lastSegment : String) : Prop :=
  ∀ length entries, node = .array length entries → lastSegment = "length" →
    (lengthOf realm value).isSome

/-- The segments, followed from a container, assign within containers. -/
def StaysInside : Decoded → List String → Prop
  | _, [] => True
  | node, [lastSegment] => isDangerous lastSegment = true ∨ IsAssignable realm value node lastSegment
  | node, segment :: nextSegment :: rest =>
    isDangerous segment = true ∨
      match node.own? segment with
      | some child =>
        if child.isContainer then StaysInside child (nextSegment :: rest)
        else isDangerous nextSegment = true
      | none =>
        (inheritedBy realm node segment = .absent ∧
            StaysInside (.createFor nextSegment) (nextSegment :: rest)) ∨
          ∃ outside, inheritedBy realm node segment = .found outside ∧
            IsDenied realm outside (nextSegment :: rest)

end Path

/-- The name of a field with a text stays inside the result so far. -/
def FieldStaysInside (convert : String → Decoded) (nested : Bool) (result : Decoded)
    (field : String × FormValue) : Prop :=
  ∀ text, field.2 = .text text → nested = true → '.' ∈ field.1.toList →
    StaysInside realm (convert text) result (splitDots field.1)

def FieldsStayInside (convert : String → Decoded) (nested : Bool) : Decoded → FormFields → Prop
  | _, [] => True
  | result, field :: fields =>
    FieldStaysInside realm convert nested result field ∧
      ∀ result', decodeField realm convert nested result field = .ok result' →
        FieldsStayInside convert nested result' fields

end Vertz.Spec

/-!
## Which form fields are decoded safely

* `decoding_contained_iff`: a form is decoded within its own containers
  exactly when its fields stay inside them.
* `inherited_method_written`: the field `toString.x` writes to a method
  that every object inherits.
-/

namespace Vertz.Proofs

open Vertz.Schema Vertz.Spec

section Walk

variable {S : Type} {realm : Realm S}

theorem contained_ok (node : Decoded) : Contained (.ok node : Except (Fault S) Decoded) :=
  ⟨node, rfl⟩

theorem not_contained_error (fault : Fault S) :
    ¬ Contained (.error fault : Except (Fault S) Decoded) := by
  rintro ⟨node, h⟩
  cases h

theorem contained_map {α : Type} (result : Except (Fault S) α) (f : α → Decoded) :
    Contained (result.map f) ↔ ∃ a, result = .ok a := by
  cases result with
  | error fault =>
    refine iff_of_false (not_contained_error fault) ?_
    rintro ⟨a, h⟩
    cases h
  | ok a => exact iff_of_true (contained_ok (f a)) ⟨a, rfl⟩

/-! ## One name -/

theorem walkOutside_ok_iff : ∀ (segments : List String) (outside : Outside S),
    (∃ u, walkOutside realm outside segments = .ok u) ↔ IsDenied realm outside segments
  | [], _ => by simp [walkOutside, IsDenied]
  | [lastSegment], outside => by
      by_cases hdanger : isDangerous lastSegment = true
      · simp [walkOutside, IsDenied, hdanger]
      · cases outside <;> simp [walkOutside, IsDenied, hdanger, assignOutside]
  | segment :: nextSegment :: rest, outside => by
      by_cases hdanger : isDangerous segment = true
      · simp [walkOutside, IsDenied, hdanger]
      · rw [walkOutside, if_neg hdanger, IsDenied]
        cases hproperty : propertyOf realm outside segment with
        | absent => cases outside <;> simp [hdanger, assignOutside]
        | throws => simp [hdanger]
        | found value =>
          simp only [walkOutside_ok_iff (nextSegment :: rest) value]
          simp [hdanger]

@[simp] theorem isContainer_put (segment : String) (child node : Decoded) :
    (node.put segment child).isContainer = node.isContainer := by
  cases node <;> rfl

theorem isContainer_createFor (nextSegment : String) :
    (Decoded.createFor nextSegment).isContainer = true := by
  unfold Decoded.createFor
  split <;> rfl

theorem isContainer_assignLast {lastSegment : String} {value node result : Decoded}
    (h : assignLast realm node lastSegment value = .ok result) : result.isContainer = true := by
  cases node with
  | object entries =>
    rw [← Except.ok.inj h]
    rfl
  | array length entries =>
    by_cases hlength : lastSegment = "length"
    · rw [assignLast, if_pos hlength] at h
      cases hvalue : lengthOf realm value with
      | none => rw [hvalue] at h; cases h
      | some newLength =>
        rw [hvalue] at h
        rw [← Except.ok.inj h]
        rfl
    · rw [assignLast, if_neg hlength] at h
      rw [← Except.ok.inj h]
      rfl
  | str _ => cases h
  | num _ => cases h
  | bool _ => cases h

theorem assignLast_contained_iff {value node : Decoded} (hnode : node.isContainer = true)
    (lastSegment : String) :
    Contained (assignLast realm node lastSegment value) ↔
      IsAssignable realm value node lastSegment := by
  cases node with
  | object entries =>
    refine iff_of_true (contained_ok _) ?_
    intro _ _ h
    cases h
  | array length entries =>
    by_cases hlength : lastSegment = "length"
    case neg =>
      rw [assignLast, if_neg hlength]
      exact iff_of_true (contained_ok _) fun _ _ _ h => absurd h hlength
    case pos =>
      rw [assignLast, if_pos hlength]
      cases hvalue : lengthOf realm value with
      | none =>
        refine iff_of_false (not_contained_error _) fun h => ?_
        have hsome := h length entries rfl hlength
        rw [hvalue] at hsome
        cases hsome
      | some newLength =>
        refine iff_of_true (contained_ok _) fun _ _ _ _ => ?_
        rw [hvalue]
        rfl
  | str _ => cases hnode
  | num _ => cases hnode
  | bool _ => cases hnode

theorem isContainer_map_put {result : Except (Fault S) Decoded} {segment : String}
    {node after : Decoded} (hnode : node.isContainer = true)
    (h : result.map (fun child => node.put segment child) = .ok after) :
    after.isContainer = true := by
  cases result with
  | error _ => cases h
  | ok child =>
    rw [← Except.ok.inj h]
    show (node.put segment child).isContainer = true
    rw [isContainer_put, hnode]

theorem isContainer_setNestedValue {value : Decoded} : ∀ (segments : List String)
    {node after : Decoded}, node.isContainer = true →
    setNestedValue realm value node segments = .ok after → after.isContainer = true
  | [], node, after, hnode, h => by
      rw [setNestedValue] at h
      rwa [← Except.ok.inj h]
  | [lastSegment], node, after, hnode, h => by
      rw [setNestedValue] at h
      split at h
      · rwa [← Except.ok.inj h]
      · exact isContainer_assignLast h
  | segment :: nextSegment :: rest, node, after, hnode, h => by
      have hoff : ∀ result : Except (Fault S) Unit,
          result.map (fun _ => node) = .ok after → after.isContainer = true := by
        rintro (_ | u) hresult
        · cases hresult
        · rwa [← Except.ok.inj hresult]
      rw [setNestedValue] at h
      split at h
      case isTrue => rwa [← Except.ok.inj h]
      case isFalse =>
        split at h
        · split at h
          · exact isContainer_map_put hnode h
          · exact hoff _ h
        · split at h
          · exact isContainer_map_put hnode h
          · exact hoff _ h
          · cases h

theorem setNestedValue_contained_iff {value : Decoded} : ∀ (segments : List String)
    {node : Decoded}, node.isContainer = true →
    (Contained (setNestedValue realm value node segments) ↔
      StaysInside realm value node segments)
  | [], node, _ => iff_of_true (contained_ok node) trivial
  | [lastSegment], node, hnode => by
      rw [setNestedValue, StaysInside]
      by_cases hdanger : isDangerous lastSegment = true
      · rw [if_pos hdanger]
        exact iff_of_true (contained_ok node) (.inl hdanger)
      · rw [if_neg hdanger, assignLast_contained_iff hnode]
        exact (or_iff_right hdanger).symm
  | segment :: nextSegment :: rest, node, hnode => by
      rw [setNestedValue, StaysInside]
      by_cases hdanger : isDangerous segment = true
      case pos =>
        rw [if_pos hdanger]
        exact iff_of_true (contained_ok node) (.inl hdanger)
      case neg =>
        rw [if_neg hdanger, or_iff_right hdanger]
        cases howned : node.own? segment with
        | some child =>
          show Contained (if child.isContainer = true then _ else _) ↔
            if child.isContainer = true then _ else _
          by_cases hchild : child.isContainer = true
          · rw [if_pos hchild, if_pos hchild, contained_map]
            exact setNestedValue_contained_iff (nextSegment :: rest) hchild
          · rw [if_neg hchild, if_neg hchild, contained_map, walkOutside_ok_iff, IsDenied]
            -- a primitive value has no properties to go on to
            simp [propertyOf]
        | none =>
          cases hinherited : inheritedBy realm node segment with
          | absent =>
            simp only [contained_map]
            refine (setNestedValue_contained_iff (nextSegment :: rest)
              (isContainer_createFor nextSegment)).trans ?_
            simp
          | found outside =>
            simp only [contained_map, walkOutside_ok_iff]
            simp
          | throws =>
            refine iff_of_false (not_contained_error _) ?_
            simp

/-! ## All fields -/

theorem isContainer_decodeField {convert : String → Decoded} {nested : Bool}
    {result after : Decoded} {field : String × FormValue} (hresult : result.isContainer = true)
    (h : decodeField realm convert nested result field = .ok after) :
    after.isContainer = true := by
  obtain ⟨key, value⟩ := field
  cases value with
  | file =>
    rw [← Except.ok.inj h]
    exact hresult
  | text text =>
    have h : setField realm nested result key (convert text) = .ok after := h
    rw [setField] at h
    split at h
    · exact isContainer_setNestedValue _ hresult h
    · rw [← Except.ok.inj h]
      split
      · exact hresult
      · rw [isContainer_put, hresult]

theorem decodeField_contained_iff {convert : String → Decoded} {nested : Bool} {result : Decoded}
    (hresult : result.isContainer = true) (field : String × FormValue) :
    Contained (decodeField realm convert nested result field) ↔
      FieldStaysInside realm convert nested result field := by
  obtain ⟨key, value⟩ := field
  cases value with
  | file =>
    refine iff_of_true (contained_ok result) ?_
    intro text h
    cases h
  | text text =>
    show Contained (setField realm nested result key (convert text)) ↔ _
    rw [setField]
    by_cases hdotted : (nested && key.toList.contains '.') = true
    · rw [if_pos hdotted, setNestedValue_contained_iff _ hresult]
      obtain ⟨hnested, hdot⟩ := Bool.and_eq_true_iff.mp hdotted
      constructor
      · intro h text' htext _ _
        rw [← FormValue.text.inj htext]
        exact h
      · intro h
        exact h text rfl hnested (List.contains_iff_mem.mp hdot)
    · rw [if_neg hdotted]
      refine iff_of_true (contained_ok _) fun _ _ hnested hdot => absurd ?_ hdotted
      rw [hnested, Bool.true_and]
      exact List.contains_iff_mem.mpr hdot

theorem decodeFields_contained_iff {convert : String → Decoded} {nested : Bool}
    (fields : FormFields) {result : Decoded} (hresult : result.isContainer = true) :
    Contained (fields.foldlM (decodeField realm convert nested) result) ↔
      FieldsStayInside realm convert nested result fields := by
  induction fields generalizing result with
  | nil => exact iff_of_true (contained_ok result) trivial
  | cons field fields ih =>
    rw [List.foldlM_cons, FieldsStayInside, ← decodeField_contained_iff hresult field]
    cases hfield : decodeField realm convert nested result field with
    | error fault =>
      refine iff_of_false (not_contained_error fault) fun h => ?_
      exact not_contained_error fault h.1
    | ok after =>
      have hafter := ih (isContainer_decodeField hresult hfield)
      constructor
      · intro h
        refine ⟨contained_ok after, fun result' heq => ?_⟩
        rw [← Except.ok.inj heq]
        exact hafter.mp h
      · rintro ⟨_, h⟩
        exact hafter.mpr (h after rfl)

end Walk

/-- Both decoders write to their own containers only and never throw
exactly when every dotted name stays inside the result built so far. -/
theorem decoding_contained_iff {S : Type} (realm : Realm S) (fields : FormFields)
    (options : Ui.Form.FormDataOptions) :
    (Contained (Ui.Form.formDataToObject realm fields options) ↔
        FieldsStayInside realm (if options.coerce then Ui.Form.coerceValue realm else .str)
          options.nested (.object []) fields) ∧
      (Contained (formLikeToNestedObject realm fields) ↔
        FieldsStayInside realm .str true (.object []) fields) :=
  ⟨decodeFields_contained_iff fields rfl, decodeFields_contained_iff fields rfl⟩

/-! ## An inherited method -/

/-- The methods of `Object.prototype`, and what functions inherit. -/
def objectRealm : Realm String where
  objectPrototype name :=
    if ["toString", "valueOf", "hasOwnProperty"].contains name then
      .found (.object ("Object.prototype." ++ name))
    else .absent
  arrayPrototype name :=
    if ["push", "map"].contains name then .found (.object ("Array.prototype." ++ name))
    else .absent
  property _ name := if ["name", "length"].contains name then .found .primitive else .absent
  toNumber _ := .nan

theorem inherited_method_written :
    ¬ (Contained (Ui.Form.formDataToObject objectRealm [("toString.x", .text "1")]
          ⟨false, true⟩) ∧
      Contained (formLikeToNestedObject objectRealm [("toString.x", .text "1")])) := by
  rintro ⟨_, node, h⟩
  have hfault : formLikeToNestedObject objectRealm [("toString.x", .text "1")] =
      .error (.write "Object.prototype.toString" "x") := by
    rfl
  rw [hfault] at h
  cases h

end Vertz.Proofs
