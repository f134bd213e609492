import Mathlib.Data.List.Infix

/-!
# `Vertz.Lib.Like`: LIKE patterns

A LIKE pattern is text in which `%` stands for any run of characters and
`_` for any one character; a dialect may have an escape character that
makes the next one literal, and may compare characters up to case.

The theorems:

* `compile_escape` / `compile_plain`: an escaped text, or a text without
  metacharacters, compiles to its own characters.
* `matches_contains`, `matches_startsWith`, `matches_endsWith`: literal
  characters with `%` around them match the texts that contain them,
  start with them, end with them.
* `sameFolded_eq`: a character that is not a letter is equal to another
  up to case only if it is the same character.
-/

namespace Vertz.Lib.Like

open List

/-- An element of a compiled pattern. -/
inductive Elem where
  | lit (c : Char)
  | one
  | many
  deriving DecidableEq, Repr

/-- The metacharacter or literal a bare pattern character stands for. -/
def elemOf (c : Char) : Elem :=
  if c = '%' then .many else if c = '_' then .one else .lit c

/-- Compile a pattern; a trailing escape character stands for itself. -/
def compile (escape : Option Char) : List Char → List Elem
  | [] => []
  | [c] => [if escape = some c then .lit c else elemOf c]
  | c :: c' :: cs =>
    if escape = some c then .lit c' :: compile escape cs
    else elemOf c :: compile escape (c' :: cs)

/-- Whether a text matches, up to `same` on literal characters. -/
def matchElems (same : Char → Char → Bool) : List Elem → List Char → Bool
  | [], [] => true
  | [], _ :: _ => false
  | .lit _ :: _, [] => false
  | .lit c :: ps, d :: ds => same c d && matchElems same ps ds
  | .one :: _, [] => false
  | .one :: ps, _ :: ds => matchElems same ps ds
  | .many :: ps, ds => ds.tails.any (matchElems same ps)

/-- Equality up to ASCII case. -/
def sameFolded (c d : Char) : Bool := c.toLower == d.toLower

def isMeta (c : Char) : Bool := c == '%' || c == '_' || c == '\\'

/-- Escape the metacharacters with a backslash. -/
def escape (cs : List Char) : List Char :=
  cs.flatMap fun c => if isMeta c then ['\\', c] else [c]

theorem elemOf_of_not_isMeta {c : Char} (h : isMeta c = false) : elemOf c = .lit c := by
  simp only [isMeta, Bool.or_eq_false_iff, beq_eq_false_iff_ne] at h
  rw [elemOf, if_neg h.1.1, if_neg h.1.2]

/-! ### Compiling -/

/-- A literal start of a pattern compiles on its own. -/
theorem compile_cons_lit {esc : Option Char} {c : Char} (hesc : esc ≠ some c)
    (hmeta : isMeta c = false) (cs : List Char) :
    compile esc (c :: cs) = .lit c :: compile esc cs := by
  cases cs with
  | nil =>
    show [if esc = some c then .lit c else elemOf c] = [.lit c]
    rw [if_neg hesc, elemOf_of_not_isMeta hmeta]
  | cons c' cs => rw [compile, if_neg hesc, elemOf_of_not_isMeta hmeta]

/-- An escaped text compiles to its own characters, whatever pattern
follows it. -/
theorem compile_escape (s rest : List Char) :
    compile (some '\\') (escape s ++ rest) = s.map .lit ++ compile (some '\\') rest := by
  induction s with
  | nil => rfl
  | cons c s ih =>
    have hcons : escape (c :: s) = (if isMeta c then ['\\', c] else [c]) ++ escape s := rfl
    rw [hcons]
    by_cases hc : isMeta c = true
    · rw [if_pos hc]
      show compile (some '\\') ('\\' :: c :: (escape s ++ rest)) = _
      rw [compile, if_pos rfl, ih]
      rfl
    · rw [if_neg hc]
      rw [Bool.not_eq_true] at hc
      have hne : (some '\\' : Option Char) ≠ some c := by
        rintro ⟨⟩
        revert hc
        decide
      show compile (some '\\') (c :: (escape s ++ rest)) = _
      rw [compile_cons_lit hne hc, ih]
      rfl

variable {s : List Char}

/-- A text without metacharacters is its own escape. -/
theorem escape_plain (h : ∀ c ∈ s, isMeta c = false) : escape s = s := by
  induction s with
  | nil => rfl
  | cons c s ih =>
    rw [forall_mem_cons] at h
    show (if isMeta c then ['\\', c] else [c]) ++ escape s = c :: s
    rw [if_neg (by rw [h.1]; decide), ih h.2]
    rfl

/-- A text without metacharacters compiles to its own characters. -/
theorem compile_plain {esc : Option Char} (hesc : esc = none ∨ esc = some '\\')
    (h : ∀ c ∈ s, isMeta c = false) (rest : List Char) :
    compile esc (s ++ rest) = s.map .lit ++ compile esc rest := by
  induction s with
  | nil => rfl
  | cons c s ih =>
    rw [forall_mem_cons] at h
    have hne : esc ≠ some c := by
      rcases hesc with rfl | rfl
      · simp
      · rintro ⟨⟩
        have := h.1
        revert this
        decide
    rw [cons_append, compile_cons_lit hne h.1, ih h.2]
    rfl

theorem compile_percent {esc : Option Char} (hesc : esc = none ∨ esc = some '\\')
    (cs : List Char) : compile esc ('%' :: cs) = .many :: compile esc cs := by
  have hne : esc ≠ some '%' := by
    rcases hesc with rfl | rfl <;> simp
  cases cs with
  | nil =>
    show [if esc = some '%' then .lit '%' else elemOf '%'] = [.many]
    rw [if_neg hne]
    rfl
  | cons c cs =>
    rw [compile, if_neg hne]
    rfl

/-! ### Matching -/

/-- `same` tells the characters of `s` apart from all others. -/
def Exact (same : Char → Char → Bool) (s : List Char) : Prop :=
  ∀ c ∈ s, ∀ d, same c d = true ↔ c = d

variable {same : Char → Char → Bool}

/-- Literal characters consume themselves. -/
theorem matches_lits_append (h : Exact same s) (ps : List Elem) (t : List Char) :
    matchElems same (s.map .lit ++ ps) t = true ↔ ∃ u, t = s ++ u ∧ matchElems same ps u = true := by
  induction s generalizing t with
  | nil => simp
  | cons c s ih =>
    have hs : Exact same s := fun d hd => h d (mem_cons_of_mem _ hd)
    cases t with
    | nil => simp [matchElems]
    | cons d t =>
      rw [map_cons, cons_append, matchElems, Bool.and_eq_true,
        h c mem_cons_self d, ih hs t]
      constructor
      · rintro ⟨rfl, u, rfl, hu⟩
        exact ⟨u, rfl, hu⟩
      · rintro ⟨u, heq, hu⟩
        rw [cons_append, List.cons.injEq] at heq
        exact ⟨heq.1.symm, u, heq.2, hu⟩

/-- `%` skips any start of the text. -/
theorem matches_many (ps : List Elem) (t : List Char) :
    matchElems same (.many :: ps) t = true ↔ ∃ u, u <:+ t ∧ matchElems same ps u = true := by
  rw [matchElems, any_eq_true]
  simp only [mem_tails]

theorem matches_nil (t : List Char) : matchElems same [] t = true ↔ t = [] := by
  cases t <;> simp [matchElems]

theorem matches_many_nil (t : List Char) : matchElems same [.many] t = true := by
  rw [matches_many]
  exact ⟨[], nil_suffix, rfl⟩

theorem matches_startsWith (h : Exact same s) (t : List Char) :
    matchElems same (s.map .lit ++ [.many]) t = true ↔ s <+: t := by
  rw [matches_lits_append h]
  constructor
  · rintro ⟨u, rfl, -⟩
    exact prefix_append s u
  · rintro ⟨u, rfl⟩
    exact ⟨u, rfl, matches_many_nil u⟩

theorem matches_endsWith (h : Exact same s) (t : List Char) :
    matchElems same (.many :: s.map .lit) t = true ↔ s <:+ t := by
  have hlits : ∀ u, matchElems same (s.map .lit) u = true ↔ u = s := by
    intro u
    have happ := matches_lits_append h [] u
    rw [append_nil] at happ
    rw [happ]
    constructor
    · rintro ⟨v, rfl, hv⟩
      rw [(matches_nil v).mp hv, append_nil]
    · rintro rfl
      exact ⟨[], (append_nil _).symm, rfl⟩
  rw [matches_many]
  constructor
  · rintro ⟨u, hu, hm⟩
    rw [← (hlits u).mp hm]
    exact hu
  · intro hs
    exact ⟨s, hs, (hlits s).mpr rfl⟩

theorem matches_contains (h : Exact same s) (t : List Char) :
    matchElems same (.many :: (s.map .lit ++ [.many])) t = true ↔ s <:+: t := by
  rw [matches_many]
  constructor
  · rintro ⟨u, ⟨a, rfl⟩, hm⟩
    obtain ⟨b, rfl⟩ := (matches_startsWith h u).mp hm
    exact ⟨a, b, append_assoc a s b⟩
  · rintro ⟨a, b, rfl⟩
    refine ⟨s ++ b, ⟨a, (append_assoc a s b).symm⟩, ?_⟩
    exact (matches_startsWith h _).mpr (prefix_append s b)

/-! ### Case folding -/

theorem isUpper_iff (c : Char) : c.isUpper = true ↔ 'A'.val ≤ c.val ∧ c.val ≤ 'Z'.val := by
  unfold Char.isUpper
  rw [decide_eq_true_eq]

theorem toLower_of_not_isUpper {c : Char} (h : c.isUpper = false) : c.toLower = c := by
  rw [← Bool.not_eq_true, isUpper_iff] at h
  unfold Char.toLower
  rw [dif_neg h]

/-- Lowercasing a capital gives a small letter. -/
theorem isLower_toLower {c : Char} (h : c.isUpper = true) : c.toLower.isLower = true := by
  rw [isUpper_iff] at h
  have hval : c.toLower.val.toNat = (c.val.toNat + 32) % 2 ^ 32 := by
    unfold Char.toLower
    rw [dif_pos h]
    exact UInt32.toNat_add c.val _
  obtain ⟨hlo, hhi⟩ := h
  rw [UInt32.le_iff_toNat_le] at hlo hhi
  have hA : 'A'.val.toNat = 65 := rfl
  have hZ : 'Z'.val.toNat = 90 := rfl
  unfold Char.isLower
  rw [Bool.and_eq_true, decide_eq_true_eq, decide_eq_true_eq, ge_iff_le, UInt32.le_iff_toNat_le,
    UInt32.le_iff_toNat_le, hval]
  show 97 ≤ _ ∧ _ ≤ 122
  omega

/-- A character that is not a letter is the same as another up to case
only if it is that character. -/
theorem sameFolded_eq {c d : Char} (h : c.isAlpha = false) : sameFolded c d = true ↔ c = d := by
  replace h : c.isUpper = false ∧ c.isLower = false := Bool.or_eq_false_iff.mp h
  rw [sameFolded, beq_iff_eq, toLower_of_not_isUpper h.1]
  constructor
  · intro heq
    cases hd : d.isUpper with
    | false => rw [heq, toLower_of_not_isUpper hd]
    | true =>
      have hlower := isLower_toLower hd
      rw [← heq, h.2] at hlower
      cases hlower
  · rintro rfl
    exact (toLower_of_not_isUpper h.1).symm

end Vertz.Lib.Like
