import Mathlib.Data.List.Basic
import Mathlib.Logic.Relation

/-!
# `Vertz.Lib.Run`: properties of the steps of a run

A machine takes one action after another. `Along` says that a property
holds of every step of a run. The theorems:

* `Along.invariant`: an invariant that every step of the run keeps holds
  at its end.
* `Along.imp`: under such an invariant one property gives another.
* `along_append`: a run in two parts.
* `along_and`: two properties hold of every step when each does.
* `along_iff`: two properties that agree wherever an invariant holds
  agree along whole runs.
* `forall_prefix_iff`: a property holds in every state that is reached
  when it holds at the start and after each step.
-/

namespace Vertz.Lib

variable {S A : Type}

/-- Every step of the run has the property. -/
def Along (apply : S → A → S) (P : S → A → Prop) : S → List A → Prop
  | _, [] => True
  | s, a :: as => P s a ∧ Along apply P (apply s a) as

instance decidableAlong (apply : S → A → S) (P : S → A → Prop) [∀ s a, Decidable (P s a)] :
    ∀ (s : S) (as : List A), Decidable (Along apply P s as)
  | _, [] => isTrue trivial
  | s, a :: as =>
    have := decidableAlong apply P (apply s a) as
    inferInstanceAs (Decidable (P s a ∧ Along apply P (apply s a) as))

variable {apply : S → A → S} {I : S → Prop} {P Q : S → A → Prop}

theorem Along.of_forall (h : ∀ s a, P s a) (s : S) (as : List A) : Along apply P s as := by
  induction as generalizing s with
  | nil => trivial
  | cons a as ih => exact ⟨h s a, ih (apply s a)⟩

theorem Along.invariant (hstep : ∀ s a, I s → P s a → I (apply s a)) {s : S} {as : List A}
    (hs : I s) (h : Along apply P s as) : I (as.foldl apply s) := by
  induction as generalizing s with
  | nil => exact hs
  | cons a as ih => exact ih (hstep s a hs h.1) h.2

theorem Along.imp (hstep : ∀ s a, I s → P s a → I (apply s a)) (himp : ∀ s a, I s → P s a → Q s a)
    {s : S} {as : List A} (hs : I s) (h : Along apply P s as) : Along apply Q s as := by
  induction as generalizing s with
  | nil => trivial
  | cons a as ih => exact ⟨himp s a hs h.1, ih (hstep s a hs h.1) h.2⟩

theorem along_append {s : S} {as bs : List A} :
    Along apply P s (as ++ bs) ↔ Along apply P s as ∧ Along apply P (as.foldl apply s) bs := by
  induction as generalizing s with
  | nil => exact (iff_of_eq (true_and _)).symm
  | cons a as ih =>
    show P s a ∧ Along apply P (apply s a) (as ++ bs) ↔ _
    rw [ih, ← and_assoc]
    rfl

theorem along_and {s : S} {as : List A} :
    Along apply (fun s a => P s a ∧ Q s a) s as ↔ Along apply P s as ∧ Along apply Q s as := by
  induction as generalizing s with
  | nil => exact (and_self_iff).symm
  | cons a as ih =>
    show (P s a ∧ Q s a) ∧ _ ↔ (P s a ∧ _) ∧ Q s a ∧ _
    rw [ih, and_and_and_comm]

theorem along_iff (hiff : ∀ s a, I s → (Q s a ↔ P s a))
    (hstep : ∀ s a, I s → P s a → I (apply s a)) {s : S} (as : List A) (hs : I s) :
    Along apply Q s as ↔ Along apply P s as := by
  induction as generalizing s with
  | nil => exact Iff.rfl
  | cons a as ih =>
    show Q s a ∧ _ ↔ P s a ∧ _
    rw [hiff s a hs]
    exact and_congr_right fun ha => ih (hstep s a hs ha)

theorem forall_prefix_iff {s : S} {as : List A} :
    (∀ before, before <+: as → I (before.foldl apply s)) ↔
      I s ∧ Along apply (fun s a => I (apply s a)) s as := by
  induction as generalizing s with
  | nil =>
    refine ⟨fun h => ⟨h [] (List.prefix_refl []), trivial⟩, ?_⟩
    rintro ⟨hs, _⟩ before hbefore
    rw [List.prefix_nil.mp hbefore]
    exact hs
  | cons a as ih =>
    show _ ↔ I s ∧ I (apply s a) ∧ _
    rw [← ih]
    constructor
    · intro h
      exact ⟨h [] (List.nil_prefix), fun before hbefore =>
        h (a :: before) ((List.prefix_cons_inj a).mpr hbefore)⟩
    · rintro ⟨hs, h⟩ before hbefore
      cases before with
      | nil => exact hs
      | cons b before =>
        obtain ⟨rfl, hrest⟩ := List.cons_prefix_cons.mp hbefore
        exact h before hrest

end Vertz.Lib

/-!
## How many steps of a relation lead somewhere

`Steps r n a c` says that `n` steps of `r` lead from `a` to `c`, and
`Distance r n a c` that no fewer do. The theorems:

* `reflTransGen_iff`: the reflexive transitive closure forgets the number.
* `Steps.mem`: a set closed under the relation is not left.
* `Steps.congr`: two relations that agree on such a set lead to the same
  places from there.
-/

namespace Vertz.Lib

variable {α : Type} {r r' : α → α → Prop} {a b c : α} {n : ℕ}

inductive Steps (r : α → α → Prop) : ℕ → α → α → Prop where
  | here (a : α) : Steps r 0 a a
  | step {n : ℕ} {a b c : α} (hstep : r a b) (hrest : Steps r n b c) : Steps r (n + 1) a c

/-- The least number of steps that lead there. -/
def Distance (r : α → α → Prop) (n : ℕ) (a c : α) : Prop :=
  Steps r n a c ∧ ∀ m, Steps r m a c → n ≤ m

theorem Steps.reflTransGen (h : Steps r n a c) : Relation.ReflTransGen r a c := by
  induction h with
  | here a => exact .refl
  | step hstep _ ih => exact .head hstep ih

theorem reflTransGen_iff : Relation.ReflTransGen r a c ↔ ∃ n, Steps r n a c := by
  constructor
  · intro h
    induction h using Relation.ReflTransGen.head_induction_on with
    | refl => exact ⟨0, .here _⟩
    | head hstep _ ih =>
      obtain ⟨n, hn⟩ := ih
      exact ⟨n + 1, .step hstep hn⟩
  · intro ⟨n, h⟩
    exact h.reflTransGen

section Closed

variable {S : α → Prop}

theorem Steps.mem (hclosed : ∀ a b, S a → r a b → S b) (h : Steps r n a c) (ha : S a) : S c := by
  induction h with
  | here a => exact ha
  | step hstep _ ih => exact ih (hclosed _ _ ha hstep)

theorem Steps.of_agree (hclosed : ∀ a b, S a → r a b → S b)
    (hagree : ∀ a b, S a → r a b → r' a b) (h : Steps r n a c) (ha : S a) : Steps r' n a c := by
  induction h with
  | here a => exact .here a
  | step hstep _ ih => exact .step (hagree _ _ ha hstep) (ih (hclosed _ _ ha hstep))

theorem Steps.congr (hclosed : ∀ a b, S a → r a b → S b)
    (hagree : ∀ a b, S a → (r a b ↔ r' a b)) (ha : S a) : Steps r n a c ↔ Steps r' n a c := by
  constructor
  · intro h
    exact h.of_agree hclosed (fun a b ha => (hagree a b ha).mp) ha
  · intro h
    refine h.of_agree ?_ (fun a b ha => (hagree a b ha).mpr) ha
    intro a b ha hstep
    exact hclosed a b ha ((hagree a b ha).mpr hstep)

end Closed

theorem le_foldl_max (ns : List ℕ) (start : ℕ) :
    start ≤ ns.foldl max start ∧ ∀ n ∈ ns, n ≤ ns.foldl max start := by
  induction ns generalizing start with
  | nil => exact ⟨Nat.le_refl _, nofun⟩
  | cons m ns ih =>
    have hih := ih (max start m)
    simp only [List.foldl_cons, List.forall_mem_cons]
    exact ⟨by omega, by omega, hih.2⟩

end Vertz.Lib
