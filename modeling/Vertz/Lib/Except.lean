import Mathlib.Init

/-!
# `Vertz.Lib.Except`: when a computation that can fail succeeds

One lemma for each way of building such a computation: what its success
says about its parts.
-/

namespace Vertz.Lib

variable {ε ε' α β : Type}

theorem ok_bind (a : α) (f : α → Except ε β) : (Except.ok a >>= f) = f a := rfl

variable {x : Except ε α} {f : α → Except ε β}

theorem bind_eq_ok {b : β} (h : x.bind f = .ok b) : ∃ a, x = .ok a ∧ f a = .ok b := by
  cases x with
  | error e => cases h
  | ok a => exact ⟨a, rfl, h⟩

theorem bind_eq_ok_iff {b : β} : (x >>= f) = .ok b ↔ ∃ a, x = .ok a ∧ f a = .ok b := by
  constructor
  · exact bind_eq_ok
  · intro h
    obtain ⟨a, ha, hb⟩ := h
    rw [ha]
    exact hb

theorem map_eq_ok {f : α → β} {b : β} (h : x.map f = .ok b) : ∃ a, x = .ok a ∧ f a = b := by
  cases x with
  | error e => cases h
  | ok a =>
    cases h
    exact ⟨a, rfl, rfl⟩

theorem mapError_ok {f : ε → ε'} {a : α} (h : x.mapError f = .ok a) : x = .ok a := by
  cases x with
  | error e => cases h
  | ok a' =>
    cases h
    rfl

theorem bind_ok_iff : (∃ b, x.bind f = .ok b) ↔ ∃ a, x = .ok a ∧ ∃ b, f a = .ok b := by
  constructor
  · intro h
    obtain ⟨b, hb⟩ := h
    obtain ⟨a, ha, hfb⟩ := bind_eq_ok hb
    exact ⟨a, ha, b, hfb⟩
  · intro h
    obtain ⟨a, ha, hb⟩ := h
    rw [ha]
    exact hb

/-- A second part that succeeds or not whatever the first one gives. -/
theorem bind_ok_iff_and {p : Prop} (h : ∀ a, (∃ b, f a = .ok b) ↔ p) :
    (∃ b, x.bind f = .ok b) ↔ (∃ a, x = .ok a) ∧ p := by
  rw [bind_ok_iff]
  constructor
  · intro h'
    obtain ⟨a, ha, hb⟩ := h'
    exact ⟨⟨a, ha⟩, (h a).mp hb⟩
  · intro h'
    obtain ⟨⟨a, ha⟩, hp⟩ := h'
    exact ⟨a, ha, (h a).mpr hp⟩

/-- A result that is reshaped and then looked at. -/
theorem map_ok_iff {f : α → β} {P : β → Prop} :
    (∃ b, x.map f = .ok b ∧ P b) ↔ ∃ a, x = .ok a ∧ P (f a) := by
  constructor
  · intro h
    obtain ⟨b, hb, hP⟩ := h
    obtain ⟨a, ha, hab⟩ := map_eq_ok hb
    exact ⟨a, ha, hab ▸ hP⟩
  · intro h
    obtain ⟨a, ha, hP⟩ := h
    exact ⟨f a, by rw [ha]; rfl, hP⟩

/-- A loop succeeds when every pass does. -/
theorem forM_ok_iff {f : α → Except ε Unit} {xs : List α} :
    forM xs f = .ok () ↔ ∀ x ∈ xs, f x = .ok () := by
  induction xs with
  | nil => simp [List.forM_nil, pure, Except.pure]
  | cons x xs ih =>
    rw [List.forM_cons]
    show ((f x).bind fun _ => forM xs f) = .ok () ↔ _
    cases hx : f x with
    | error e => simp [Except.bind, hx]
    | ok u => simp [Except.bind, hx, ih]

end Vertz.Lib
