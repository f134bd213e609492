import Mathlib.Data.Prod.Lex
import Mathlib.Data.String.Basic
import Mathlib.Algebra.Order.Ring.Rat
import Vertz.Lib.Record

/-!
# `Vertz.Js`: JavaScript values

The values the TypeScript code passes around as `unknown`: `undefined`,
`null`, booleans, finite numbers, strings, arrays and plain objects. An
object is its list of entries in enumeration order.

The order on values is the one a database sorts and compares a column
by. It is lexicographic on `Js.encode`, which is injective
(`encode_injective`) because no encoding is a proper prefix of another
(`encode_append_inj`).
-/

namespace Vertz

/-- A JavaScript value. -/
inductive Js where
  | undefined
  | null
  | bool (b : Bool)
  | num (q : ℚ)
  | str (s : String)
  | arr (xs : List Js)
  | obj (entries : List (String × Js))
  deriving Repr

namespace Js

/-- One letter of an encoded value: a tag, a number and a text. -/
abbrev Letter := ℕ ×ₗ ℚ ×ₗ String

def letter (tag : ℕ) (q : ℚ) (s : String) : Letter := toLex (tag, toLex (q, s))

theorem letter_inj {t t' : ℕ} {q q' : ℚ} {s s' : String} :
    letter t q s = letter t' q' s' ↔ t = t' ∧ q = q' ∧ s = s' := by
  simp [letter]

mutual

/-- A value as a word over `Letter`. Lists are closed by a terminator,
so that no word is a proper prefix of another. -/
def encode : Js → List Letter
  | .undefined => [letter 0 0 ""]
  | .null => [letter 1 0 ""]
  | .bool b => [letter 2 (if b then 1 else 0) ""]
  | .num q => [letter 3 q ""]
  | .str s => [letter 4 0 s]
  | .arr xs => letter 5 0 "" :: encodeList xs
  | .obj es => letter 6 0 "" :: encodeEntries es

def encodeList : List Js → List Letter
  | [] => [letter 0 0 ""]
  | x :: xs => letter 1 0 "" :: (encode x ++ encodeList xs)

def encodeEntries : List (String × Js) → List Letter
  | [] => [letter 0 0 ""]
  | (k, x) :: es => letter 1 0 k :: (encode x ++ encodeEntries es)

end

mutual

theorem encode_append_inj : (a b : Js) → (s t : List Letter) →
    encode a ++ s = encode b ++ t → a = b ∧ s = t
  | .undefined, b, s, t => by
      cases b <;> simp [encode, letter_inj]
  | .null, b, s, t => by
      cases b <;> simp [encode, letter_inj]
  | .bool x, b, s, t => by
      cases b <;> simp [encode, letter_inj]
      rename_i y
      cases x <;> cases y <;> simp
  | .num q, b, s, t => by
      cases b <;> simp [encode, letter_inj]
  | .str x, b, s, t => by
      cases b <;> simp [encode, letter_inj]
  | .arr xs, b, s, t => by
      intro h
      cases b with
      | arr ys =>
        simp only [encode, List.cons_append, List.cons.injEq, true_and] at h
        obtain ⟨hxs, hst⟩ := encodeList_append_inj xs ys s t h
        exact ⟨by rw [hxs], hst⟩
      | _ => simp [encode, letter_inj] at h
  | .obj es, b, s, t => by
      intro h
      cases b with
      | obj fs =>
        simp only [encode, List.cons_append, List.cons.injEq, true_and] at h
        obtain ⟨hes, hst⟩ := encodeEntries_append_inj es fs s t h
        exact ⟨by rw [hes], hst⟩
      | _ => simp [encode, letter_inj] at h

theorem encodeList_append_inj : (xs ys : List Js) → (s t : List Letter) →
    encodeList xs ++ s = encodeList ys ++ t → xs = ys ∧ s = t
  | [], ys, s, t => by
      cases ys <;> simp [encodeList, letter_inj]
  | x :: xs, ys, s, t => by
      intro h
      cases ys with
      | nil => simp [encodeList, letter_inj] at h
      | cons y ys =>
        simp only [encodeList, List.cons_append, List.cons.injEq, true_and,
          List.append_assoc] at h
        obtain ⟨hx, hrest⟩ := encode_append_inj x y _ _ h
        obtain ⟨hxs, hst⟩ := encodeList_append_inj xs ys s t hrest
        exact ⟨by rw [hx, hxs], hst⟩

theorem encodeEntries_append_inj : (es fs : List (String × Js)) → (s t : List Letter) →
    encodeEntries es ++ s = encodeEntries fs ++ t → es = fs ∧ s = t
  | [], fs, s, t => by
      cases fs <;> simp [encodeEntries, letter_inj]
  | (k, x) :: es, fs, s, t => by
      intro h
      cases fs with
      | nil => simp [encodeEntries, letter_inj] at h
      | cons f fs =>
        obtain ⟨j, y⟩ := f
        simp only [encodeEntries, List.cons_append, List.cons.injEq, letter_inj, true_and,
          List.append_assoc] at h
        obtain ⟨hk, hrest⟩ := h
        obtain ⟨hx, hrest⟩ := encode_append_inj x y _ _ hrest
        obtain ⟨hes, hst⟩ := encodeEntries_append_inj es fs s t hrest
        exact ⟨by rw [hk, hx, hes], hst⟩

end

theorem encode_injective : Function.Injective encode := by
  intro a b h
  exact (encode_append_inj a b [] [] (by rw [h])).1

/-- The order a database sorts and compares values by. -/
instance : LinearOrder Js := LinearOrder.lift' encode encode_injective

/-- Numbers are ordered as numbers. -/
theorem num_lt_num {a b : ℚ} : Js.num a < Js.num b ↔ a < b := by
  have hlift : Js.num a < Js.num b ↔ encode (.num a) < encode (.num b) := Iff.rfl
  rw [hlift, encode, encode, List.cons_lt_cons_iff]
  simp [letter, Prod.Lex.toLex_lt_toLex]

/-- `a === b`. Two arrays or objects are never the same reference here:
one side is always freshly read from a row. -/
def strictEq : Js → Js → Bool
  | .undefined, .undefined => true
  | .null, .null => true
  | .bool a, .bool b => a == b
  | .num a, .num b => a == b
  | .str a, .str b => a == b
  | _, _ => false

/-- `null` and `undefined`: what reaches a database as `NULL`. -/
def isNullish : Js → Bool
  | .undefined => true
  | .null => true
  | _ => false

@[simp] theorem isNullish_str (s : String) : (Js.str s).isNullish = false := rfl

@[simp] theorem isNullish_arr (xs : List Js) : (Js.arr xs).isNullish = false := rfl

/-- JavaScript truthiness. -/
def truthy : Js → Bool
  | .undefined => false
  | .null => false
  | .bool b => b
  | .num q => q != 0
  | .str s => s != ""
  | .arr _ => true
  | .obj _ => true

/-- A value `===` compares by content. -/
def isPrimitive : Js → Bool
  | .arr _ => false
  | .obj _ => false
  | _ => true

/-- On primitives `===` is equality. -/
theorem strictEq_iff {a b : Js} (hb : b.isPrimitive = true) : strictEq a b = true ↔ a = b := by
  cases a <;> cases b <;> simp_all [strictEq, isPrimitive]

theorem eq_of_strictEq {a b : Js} (h : strictEq a b = true) : a = b := by
  cases a <;> cases b <;> simp_all [strictEq]

mutual

/-- How deeply arrays and objects nest. -/
def depth : Js → ℕ
  | .arr xs => depthList xs + 1
  | .obj es => depthEntries es + 1
  | _ => 0

def depthList : List Js → ℕ
  | [] => 0
  | x :: xs => max (depth x) (depthList xs)

def depthEntries : List (String × Js) → ℕ
  | [] => 0
  | (_, x) :: es => max (depth x) (depthEntries es)

end

theorem depth_le_depthList {x : Js} {xs : List Js} (h : x ∈ xs) : depth x ≤ depthList xs := by
  induction xs with
  | nil => cases h
  | cons y ys ih =>
    rw [depthList]
    rcases List.mem_cons.mp h with rfl | h
    · exact le_max_left _ _
    · exact le_max_of_le_right (ih h)

theorem depth_le_depthEntries {k : String} {x : Js} {es : List (String × Js)} (h : (k, x) ∈ es) :
    depth x ≤ depthEntries es := by
  induction es with
  | nil => cases h
  | cons e es ih =>
    obtain ⟨j, y⟩ := e
    rw [depthEntries]
    rcases List.mem_cons.mp h with h | h
    · cases h
      exact le_max_left _ _
    · exact le_max_of_le_right (ih h)

theorem depthEntries_le {es fs : List (String × Js)} (h : ∀ e ∈ es, e ∈ fs) :
    depthEntries es ≤ depthEntries fs := by
  induction es with
  | nil => exact Nat.zero_le _
  | cons e es ih =>
    obtain ⟨k, x⟩ := e
    rw [depthEntries]
    exact max_le (depth_le_depthEntries (h _ List.mem_cons_self))
      (ih fun e he => h e (List.mem_cons_of_mem _ he))

mutual

/-- No `undefined` anywhere in the value: what JSON can carry. -/
def isJson : Js → Bool
  | .undefined => false
  | .arr xs => isJsonList xs
  | .obj es => isJsonEntries es
  | _ => true

def isJsonList : List Js → Bool
  | [] => true
  | x :: xs => isJson x && isJsonList xs

def isJsonEntries : List (String × Js) → Bool
  | [] => true
  | (_, x) :: es => isJson x && isJsonEntries es

end

theorem isJsonList_iff {xs : List Js} : isJsonList xs = true ↔ ∀ x ∈ xs, isJson x = true := by
  induction xs with
  | nil => simp [isJsonList]
  | cons x xs ih => simp [isJsonList, ih]

theorem isJsonEntries_iff {es : List (String × Js)} :
    isJsonEntries es = true ↔ ∀ e ∈ es, isJson e.2 = true := by
  induction es with
  | nil => simp [isJsonEntries]
  | cons e es ih =>
    obtain ⟨k, x⟩ := e
    simp [isJsonEntries, ih]

mutual

/-- `JSON.parse(JSON.stringify(value))`: `undefined` becomes `null` in an
array, and a field that is `undefined` is dropped. -/
def throughJson : Js → Js
  | .undefined => .null
  | .arr xs => .arr (throughJsonList xs)
  | .obj es => .obj (throughJsonEntries es)
  | value => value

def throughJsonList : List Js → List Js
  | [] => []
  | x :: xs => throughJson x :: throughJsonList xs

def throughJsonEntries : List (String × Js) → List (String × Js)
  | [] => []
  | (_, .undefined) :: es => throughJsonEntries es
  | (k, x) :: es => (k, throughJson x) :: throughJsonEntries es

end

mutual

theorem throughJson_of_isJson : (x : Js) → isJson x = true → throughJson x = x
  | .undefined, h => by cases h
  | .null, _ => rfl
  | .bool _, _ => rfl
  | .num _, _ => rfl
  | .str _, _ => rfl
  | .arr xs, h => congrArg Js.arr (throughJsonList_of_isJson xs h)
  | .obj es, h => congrArg Js.obj (throughJsonEntries_of_isJson es h)

theorem throughJsonList_of_isJson :
    (xs : List Js) → isJsonList xs = true → throughJsonList xs = xs
  | [], _ => rfl
  | x :: xs, h => by
      rw [isJsonList, Bool.and_eq_true] at h
      rw [throughJsonList, throughJson_of_isJson x h.1, throughJsonList_of_isJson xs h.2]

theorem throughJsonEntries_of_isJson :
    (es : List (String × Js)) → isJsonEntries es = true → throughJsonEntries es = es
  | [], _ => rfl
  | (k, x) :: es, h => by
      rw [isJsonEntries, Bool.and_eq_true] at h
      have hx : x ≠ .undefined := fun heq => by
        rw [heq] at h
        cases h.1
      rw [throughJsonEntries, throughJson_of_isJson x h.1, throughJsonEntries_of_isJson es h.2]
      exact fun heq => hx heq

end

example : (Js.num 3) < Js.num 4 := by decide

end Js

end Vertz
