import Mathlib.Order.Basic
import Mathlib.Data.List.Basic

/-!
# `Vertz.Lib.Kleene`: strong Kleene truth values

The three truth values of a condition over a row that may hold absent
values, with the strong Kleene connectives and their list forms. A
condition *holds* when its value is `yes`; both `no` and `unknown`
leave the row out.

The theorems:

* `all_eq_yes` / `any_eq_yes`: the list connectives hold exactly when
  every, respectively some, member holds.
* `all_congr` / `any_congr`: pointwise equal lists combine to the same
  value.
* `Below`: the information order. Every connective is monotone in it
  (`neg_below`, `all_below`, `any_below`), so a value that is already
  decided with every input unknown stays decided whatever the inputs
  turn out to be.
* `all_ofBool` / `any_ofBool`: on decided inputs the connectives are the
  Boolean ones.
-/

namespace Vertz.Lib

/-- A Kleene truth value. -/
inductive Tri where
  | yes
  | no
  | unknown
  deriving DecidableEq, Repr

namespace Tri

/-- The value of a decided condition. -/
def ofBool : Bool → Tri
  | true => .yes
  | false => .no

/-- A Boolean that is only known when `absent` is false. -/
def unknownIf (absent value : Bool) : Tri :=
  match absent with
  | true => .unknown
  | false => ofBool value

def neg : Tri → Tri
  | .yes => .no
  | .no => .yes
  | .unknown => .unknown

def and : Tri → Tri → Tri
  | .no, _ => .no
  | .yes, t => t
  | .unknown, .no => .no
  | .unknown, _ => .unknown

def or : Tri → Tri → Tri
  | .yes, _ => .yes
  | .no, t => t
  | .unknown, .yes => .yes
  | .unknown, _ => .unknown

/-- Conjunction over a list; the empty conjunction is `yes`. -/
def all : List Tri → Tri
  | [] => .yes
  | t :: ts => and t (all ts)

/-- Disjunction over a list; the empty disjunction is `no`. -/
def any : List Tri → Tri
  | [] => .no
  | t :: ts => or t (any ts)

@[simp] theorem all_nil : all [] = .yes := rfl

@[simp] theorem all_cons (t : Tri) (ts : List Tri) : all (t :: ts) = and t (all ts) := rfl

@[simp] theorem any_cons (t : Tri) (ts : List Tri) : any (t :: ts) = or t (any ts) := rfl

@[simp] theorem and_yes (t : Tri) : and t .yes = t := by
  cases t <;> rfl

@[simp] theorem or_no (t : Tri) : or t .no = t := by
  cases t <;> rfl

theorem and_assoc (a b c : Tri) : and (and a b) c = and a (and b c) := by
  cases a <;> cases b <;> cases c <;> rfl

/-- A conjunction over an appended list splits. -/
theorem all_append (as bs : List Tri) : all (as ++ bs) = and (all as) (all bs) := by
  induction as with
  | nil => rfl
  | cons a as ih =>
    rw [List.cons_append, all_cons, all_cons, ih, and_assoc]

theorem and_eq_yes {a b : Tri} : and a b = .yes ↔ a = .yes ∧ b = .yes := by
  cases a <;> cases b <;> simp [and]

theorem or_eq_yes {a b : Tri} : or a b = .yes ↔ a = .yes ∨ b = .yes := by
  cases a <;> cases b <;> simp [or]

/-- A conjunction holds exactly when every member does. -/
theorem all_eq_yes {ts : List Tri} : all ts = .yes ↔ ∀ t ∈ ts, t = .yes := by
  induction ts with
  | nil => simp
  | cons t ts ih => rw [all_cons, and_eq_yes, ih, List.forall_mem_cons]

/-- Conjunctions of pointwise equal values agree. -/
theorem all_congr {α : Type} {f g : α → Tri} {xs : List α} (h : ∀ x ∈ xs, f x = g x) :
    all (xs.map f) = all (xs.map g) := by
  rw [List.map_congr_left h]

/-- Disjunctions of pointwise equal values agree. -/
theorem any_congr {α : Type} {f g : α → Tri} {xs : List α} (h : ∀ x ∈ xs, f x = g x) :
    any (xs.map f) = any (xs.map g) := by
  rw [List.map_congr_left h]

/-! ### The information order -/

/-- `a` says no more than `b`: either it is still unknown or the two
agree. -/
def Below (a b : Tri) : Prop :=
  a = .unknown ∨ a = b

theorem Below.refl (a : Tri) : Below a a := .inr rfl

/-- A decided value is the value above it. -/
theorem Below.eq_of_yes {a b : Tri} (h : Below a b) (ha : a = .yes) : b = .yes := by
  rcases h with h | h
  · rw [ha] at h
    cases h
  · rw [← h, ha]

theorem neg_below {a b : Tri} (h : Below a b) : Below (neg a) (neg b) := by
  rcases h with rfl | rfl
  · exact .inl rfl
  · exact .refl _

theorem and_below {a a' b b' : Tri} (ha : Below a a') (hb : Below b b') :
    Below (and a b) (and a' b') := by
  rcases ha with rfl | rfl <;> rcases hb with rfl | rfl
  · exact .inl rfl
  · cases b <;> cases a' <;> simp [Below, and]
  · cases a <;> cases b' <;> simp [Below, and]
  · exact .refl _

theorem or_below {a a' b b' : Tri} (ha : Below a a') (hb : Below b b') :
    Below (or a b) (or a' b') := by
  rcases ha with rfl | rfl <;> rcases hb with rfl | rfl
  · exact .inl rfl
  · cases b <;> cases a' <;> simp [Below, or]
  · cases a <;> cases b' <;> simp [Below, or]
  · exact .refl _

/-! ### Decided values -/

@[simp] theorem ofBool_eq_yes {b : Bool} : ofBool b = .yes ↔ b = true := by
  cases b <;> simp [ofBool]

theorem and_ofBool (a b : Bool) : and (ofBool a) (ofBool b) = ofBool (a && b) := by
  cases a <;> cases b <;> rfl

theorem or_ofBool (a b : Bool) : or (ofBool a) (ofBool b) = ofBool (a || b) := by
  cases a <;> cases b <;> rfl

/-- On decided members the conjunction is `List.all`. -/
theorem all_ofBool {α : Type} (f : α → Bool) (xs : List α) :
    all (xs.map fun x => ofBool (f x)) = ofBool (xs.all f) := by
  induction xs with
  | nil => rfl
  | cons x xs ih => rw [List.map_cons, all_cons, ih, and_ofBool, List.all_cons]

/-- On decided members the disjunction is `List.any`. -/
theorem any_ofBool {α : Type} (f : α → Bool) (xs : List α) :
    any (xs.map fun x => ofBool (f x)) = ofBool (xs.any f) := by
  induction xs with
  | nil => rfl
  | cons x xs ih => rw [List.map_cons, any_cons, ih, or_ofBool, List.any_cons]

@[simp] theorem unknownIf_false (b : Bool) : unknownIf false b = ofBool b := rfl

@[simp] theorem unknownIf_true (b : Bool) : unknownIf true b = .unknown := rfl

theorem neg_unknownIf (a b : Bool) : neg (unknownIf a b) = unknownIf a !b := by
  cases a <;> cases b <;> rfl

/-- What is unknown as soon as a side is absent may as well check it. -/
theorem unknownIf_guard (a b v : Bool) :
    unknownIf (a || b) (!a && !b && v) = unknownIf (a || b) v := by
  cases a <;> cases b <;> rfl

end Tri

end Vertz.Lib
