import Mathlib.Algebra.Group.Nat.Defs
import Mathlib.Order.Lattice
import Mathlib.Data.List.Basic
import Mathlib.Data.List.Induction

/-!
# `Vertz.Rust`: operations of the standard library

A string is the list of its characters. The operations are those that the
native runtime reads its files with: lines, trimming, prefixes, and the
parsing of a decimal number. `maxBy` is the iterator's `max_by`.

The theorems say what they do to a text that was written line by line
(`lines_unlines`), to an indented line (`trim_indent`) and to a quoted
value (`trimMatches_quoted`), and which element is the maximum
(`maxBy_spec`).
-/

namespace Vertz.Rust

open List

/-- The characters of the Unicode property `White_Space`. -/
def isWhitespace (c : Char) : Bool :=
  (0x9 ≤ c.toNat && c.toNat ≤ 0xd) || c.toNat == 0x20 || c.toNat == 0x85 || c.toNat == 0xa0 ||
    c.toNat == 0x1680 || (0x2000 ≤ c.toNat && c.toNat ≤ 0x200a) || c.toNat == 0x2028 ||
    c.toNat == 0x2029 || c.toNat == 0x202f || c.toNat == 0x205f || c.toNat == 0x3000

/-- Drop the matching characters of both ends. -/
def trimWhile (p : Char → Bool) (s : List Char) : List Char :=
  ((s.dropWhile p).reverse.dropWhile p).reverse

def trimStart (s : List Char) : List Char := s.dropWhile isWhitespace

def trim (s : List Char) : List Char := trimWhile isWhitespace s

def trimMatches (c : Char) (s : List Char) : List Char := trimWhile (fun d => d == c) s

def stripPrefix (p s : List Char) : Option (List Char) := p.isPrefixOf? s

/-- A carriage return before the line feed belongs to the line ending. -/
def stripReturn (s : List Char) : List Char :=
  match s.reverse with
  | '\r' :: rest => rest.reverse
  | _ => s

/-- The lines, with `acc` read of the first one. The last line ending is
optional. -/
def linesFrom (acc : List Char) : List Char → List (List Char)
  | [] => if acc.isEmpty then [] else [acc]
  | c :: cs =>
    if c = '\n' then stripReturn acc :: linesFrom [] cs else linesFrom (acc ++ [c]) cs

def lines (s : List Char) : List (List Char) := linesFrom [] s

def unlines (ls : List (List Char)) : List Char := ls.flatMap (fun l => l ++ ['\n'])

def digitValue (c : Char) : ℕ := c.toNat - '0'.toNat

/-- `str::parse::<u32>` on ASCII digits. -/
def parseU32 (digits : List Char) : Option ℕ :=
  let value := digits.foldl (fun n c => 10 * n + digitValue c) 0
  if digits = [] ∨ 2 ^ 32 ≤ value then none else some value

/-- The parts before and after the first occurrence. -/
def splitOnce (c : Char) : List Char → Option (List Char × List Char)
  | [] => none
  | d :: ds =>
    if d = c then some ([], ds) else (splitOnce c ds).map (fun parts => (d :: parts.1, parts.2))

/-- The parts before and after the last occurrence. -/
def rsplitOnce (c : Char) : List Char → Option (List Char × List Char)
  | [] => none
  | d :: ds =>
    match rsplitOnce c ds with
    | some parts => some (d :: parts.1, parts.2)
    | none => if d = c then some ([], ds) else none

/-- The last of the elements that no other one is greater than. -/
def maxBy {α : Type} (cmp : α → α → Ordering) : List α → Option α
  | [] => none
  | x :: xs => some (xs.foldl (fun best y => if cmp best y = .gt then best else y) x)

/-- `Option`'s order: nothing is below everything. -/
def compareOption {α : Type} (cmp : α → α → Ordering) : Option α → Option α → Ordering
  | none, none => .eq
  | none, some _ => .lt
  | some _, none => .gt
  | some a, some b => cmp a b

/-! ### Lines -/

theorem linesFrom_line {acc line rest : List Char} (h : '\n' ∉ line) :
    linesFrom acc (line ++ '\n' :: rest) = stripReturn (acc ++ line) :: linesFrom [] rest := by
  induction line generalizing acc with
  | nil => simp [linesFrom]
  | cons c cs ih =>
    rw [mem_cons, not_or] at h
    have hc : ¬ c = '\n' := fun heq => h.1 heq.symm
    rw [cons_append, linesFrom, if_neg hc, ih h.2, append_assoc]
    rfl

/-- A line that a reader gives back as it was written. -/
def IsLine (l : List Char) : Prop := '\n' ∉ l ∧ stripReturn l = l

theorem lines_unlines {ls : List (List Char)} (h : ∀ l ∈ ls, IsLine l) :
    lines (unlines ls) = ls := by
  induction ls with
  | nil => rfl
  | cons l ls ih =>
    have hl := h l mem_cons_self
    have hrest := ih (fun l hl => h l (mem_cons_of_mem _ hl))
    show linesFrom [] ((l ++ ['\n']) ++ unlines ls) = _
    rw [append_assoc, singleton_append, linesFrom_line hl.1, nil_append, hl.2]
    exact congrArg (l :: ·) hrest

variable {s : List Char} {c : Char}

theorem mem_stripReturn (h : c ∈ stripReturn s) : c ∈ s := by
  unfold stripReturn at h
  split at h
  · rename_i rest heq
    have hmem : c ∈ s.reverse := by
      rw [heq]
      exact mem_cons_of_mem _ (mem_reverse.mp h)
    exact mem_reverse.mp hmem
  · exact h

theorem newline_not_mem_linesFrom {acc s : List Char} (hacc : '\n' ∉ acc) :
    ∀ l ∈ linesFrom acc s, '\n' ∉ l := by
  induction s generalizing acc with
  | nil =>
    intro l hl
    rw [linesFrom] at hl
    split at hl
    · cases hl
    · rw [mem_singleton.mp hl]
      exact hacc
  | cons c cs ih =>
    intro l hl
    rw [linesFrom] at hl
    split at hl
    · rcases mem_cons.mp hl with hl | hl
      · rw [hl]
        exact fun hmem => hacc (mem_stripReturn hmem)
      · exact ih not_mem_nil l hl
    · rename_i hc
      refine ih (fun hmem => ?_) l hl
      rcases mem_append.mp hmem with hmem | hmem
      · exact hacc hmem
      · exact hc (mem_singleton.mp hmem).symm

theorem newline_not_mem_lines (s : List Char) : ∀ l ∈ lines s, '\n' ∉ l :=
  newline_not_mem_linesFrom not_mem_nil

/-- A line that ends in something else than a carriage return. -/
theorem stripReturn_of_getLast (h : s.getLast? = some c) (hc : c ≠ '\r') : stripReturn s = s := by
  unfold stripReturn
  rw [← head?_reverse] at h
  split
  · rename_i rest heq
    rw [heq] at h
    exact absurd (Option.some.inj h).symm hc
  · rfl

/-! ### Trimming -/

variable {p : Char → Bool}

theorem trimWhile_append {pre body : List Char} (hpre : ∀ c ∈ pre, p c = true) :
    trimWhile p (pre ++ body) = trimWhile p body := by
  unfold trimWhile
  rw [dropWhile_append_of_pos hpre]

/-- What starts and ends with other characters is left as it is. -/
theorem trimWhile_eq_self (hhead : ∀ c, s.head? = some c → p c = false)
    (hlast : ∀ c, s.getLast? = some c → p c = false) : trimWhile p s = s := by
  have hdrop : ∀ t : List Char, (∀ c, t.head? = some c → p c = false) → t.dropWhile p = t := by
    intro t ht
    cases t with
    | nil => rfl
    | cons c cs => simp [List.dropWhile, ht c rfl]
  unfold trimWhile
  rw [hdrop s hhead, hdrop s.reverse (by simpa [head?_reverse] using hlast),
    reverse_reverse]

theorem head_dropWhile (h : (s.dropWhile p).head? = some c) : p c = false := by
  induction s with
  | nil => cases h
  | cons d ds ih =>
    rw [dropWhile_cons] at h
    split at h
    · exact ih h
    · rename_i hd
      cases h
      simpa using hd

theorem mem_trimWhile (h : c ∈ trimWhile p s) : c ∈ s := by
  unfold trimWhile at h
  have hdrop := (dropWhile_suffix p).mem (mem_reverse.mp h)
  exact (dropWhile_suffix p).mem (mem_reverse.mp hdrop)

theorem getLast_trimWhile (h : (trimWhile p s).getLast? = some c) : p c = false := by
  unfold trimWhile at h
  rw [getLast?_reverse] at h
  exact head_dropWhile h

/-- The first character left is the first one that does not match. -/
theorem head_of_trimWhile (h : (trimWhile p s).head? = some c) :
    (s.dropWhile p).head? = some c := by
  have hsuffix := dropWhile_suffix p (l := (s.dropWhile p).reverse)
  have hfront : trimWhile p s <+: s.dropWhile p := by
    rw [← reverse_suffix, trimWhile, reverse_reverse]
    exact hsuffix
  obtain ⟨rest, hrest⟩ := hfront
  rw [← hrest]
  cases htrim : trimWhile p s with
  | nil =>
    rw [htrim] at h
    cases h
  | cons d ds =>
    rw [htrim] at h
    exact h

theorem head_trimWhile (h : (trimWhile p s).head? = some c) :
    p c = false := head_dropWhile (head_of_trimWhile h)

/-- An indented line that starts and ends in something else. -/
theorem trim_indent {pre body : List Char} (hpre : ∀ c ∈ pre, isWhitespace c = true)
    (hhead : ∀ c, body.head? = some c → isWhitespace c = false)
    (hlast : ∀ c, body.getLast? = some c → isWhitespace c = false) :
    trim (pre ++ body) = body := by
  rw [trim, trimWhile_append hpre]
  exact trimWhile_eq_self hhead hlast

theorem trimMatches_quoted {q : Char} {v : List Char} (hhead : v.head? ≠ some q)
    (hlast : v.getLast? ≠ some q) : trimMatches q (q :: (v ++ [q])) = v := by
  have hall : trimWhile (fun d => d == q) v = v := by
    refine trimWhile_eq_self ?_ ?_
    · intro c hc
      simp only [beq_eq_false_iff_ne]
      exact fun heq => hhead (heq ▸ hc)
    · intro c hc
      simp only [beq_eq_false_iff_ne]
      exact fun heq => hlast (heq ▸ hc)
  rw [trimMatches, ← singleton_append, trimWhile_append (by simp)]
  cases v with
  | nil => simp [trimWhile]
  | cons c cs =>
    have hc : ¬ c = q := fun heq => hhead (by rw [heq]; rfl)
    unfold trimWhile at hall ⊢
    rw [cons_append, dropWhile_cons_of_neg (by simpa using hc), ← cons_append,
      reverse_append, reverse_singleton, singleton_append,
      dropWhile_cons_of_pos (by simp)]
    rw [dropWhile_cons_of_neg (by simpa using hc)] at hall
    exact hall

theorem stripPrefix_append (p s : List Char) : stripPrefix p (p ++ s) = some s := by
  unfold stripPrefix
  induction p with
  | nil => cases s <;> rfl
  | cons c cs ih => simp [List.isPrefixOf?, ih]

/-! ### Splitting -/

theorem splitOnce_append {s t : List Char} (h : c ∉ s) :
    splitOnce c (s ++ c :: t) = some (s, t) := by
  induction s with
  | nil => simp [splitOnce]
  | cons d ds ih =>
    rw [mem_cons, not_or] at h
    have hd : ¬ d = c := fun heq => h.1 heq.symm
    rw [cons_append, splitOnce, if_neg hd, ih h.2]
    rfl

theorem splitOnce_eq {s pre post : List Char} (h : splitOnce c s = some (pre, post)) :
    s = pre ++ c :: post ∧ c ∉ pre := by
  induction s generalizing pre with
  | nil => cases h
  | cons d ds ih =>
    rw [splitOnce] at h
    by_cases hd : d = c
    · rw [if_pos hd] at h
      cases h
      exact ⟨by rw [hd]; rfl, not_mem_nil⟩
    · rw [if_neg hd] at h
      obtain ⟨⟨pre', post'⟩, hsplit, heq⟩ := Option.map_eq_some_iff.mp h
      cases heq
      obtain ⟨happ, hout⟩ := ih hsplit
      refine ⟨by rw [happ]; rfl, ?_⟩
      rw [mem_cons, not_or]
      exact ⟨fun heq => hd heq.symm, hout⟩

/-! ### Maxima -/

section

variable {α β : Type} [LinearOrder β] {cmp : α → α → Ordering} {f : α → β}

theorem foldl_max (x : α) (xs : List α)
    (hcmp : ∀ a ∈ x :: xs, ∀ b ∈ x :: xs, cmp a b = .gt ↔ f b < f a) :
    ∃ pre post, x :: xs = pre ++
        xs.foldl (fun best y => if cmp best y = .gt then best else y) x :: post ∧
      (∀ y ∈ pre, f y ≤ f (xs.foldl (fun best y => if cmp best y = .gt then best else y) x)) ∧
      ∀ y ∈ post, f y < f (xs.foldl (fun best y => if cmp best y = .gt then best else y) x) := by
  induction xs using List.reverseRecOn with
  | nil => exact ⟨[], [], rfl, by simp, by simp⟩
  | append_singleton xs y ih =>
    have hsub : ∀ z ∈ x :: xs, z ∈ x :: (xs ++ [y]) := fun z hz => by
      rw [← cons_append]
      exact mem_append_left _ hz
    obtain ⟨pre, post, hsplit, hpre, hpost⟩ :=
      ih (fun a ha b hb => hcmp a (hsub a ha) b (hsub b hb))
    have hmem : xs.foldl (fun best y => if cmp best y = .gt then best else y) x ∈ x :: xs := by
      rw [hsplit]
      exact mem_append_right _ mem_cons_self
    have hbest := hcmp _ (hsub _ hmem) y (by simp)
    rw [foldl_append, foldl_cons, foldl_nil]
    by_cases hgt : cmp (xs.foldl (fun best y => if cmp best y = .gt then best else y) x) y = .gt
    · rw [if_pos hgt]
      refine ⟨pre, post ++ [y], ?_, hpre, ?_⟩
      · rw [← cons_append, hsplit]
        simp
      · intro z hz
        rcases mem_append.mp hz with hz | hz
        · exact hpost z hz
        · rw [mem_singleton.mp hz]
          exact hbest.mp hgt
    · rw [if_neg hgt]
      have hle := not_lt.mp (fun hlt => hgt (hbest.mpr hlt))
      refine ⟨x :: xs, [], by simp, ?_, by simp⟩
      intro z hz
      rw [hsplit] at hz
      rcases mem_append.mp hz with hz | hz
      · exact le_trans (hpre z hz) hle
      · rcases mem_cons.mp hz with hz | hz
        · rw [hz]
          exact hle
        · exact le_trans (le_of_lt (hpost z hz)) hle

theorem maxBy_mem {α : Type} {cmp : α → α → Ordering} {xs : List α} {m : α}
    (h : maxBy cmp xs = some m) : m ∈ xs := by
  cases xs with
  | nil => cases h
  | cons x xs =>
    cases h
    induction xs using List.reverseRecOn with
    | nil => exact mem_cons_self
    | append_singleton xs y ih =>
      rw [foldl_append, foldl_cons, foldl_nil]
      split_ifs
      · exact mem_append_left [y] ih
      · exact mem_append_right (x :: xs) mem_cons_self

/-- Nothing is greater than the maximum, and what is behind it is less. -/
theorem maxBy_spec {xs : List α} {m : α}
    (hcmp : ∀ a ∈ xs, ∀ b ∈ xs, cmp a b = .gt ↔ f b < f a) (h : maxBy cmp xs = some m) :
    ∃ pre post, xs = pre ++ m :: post ∧ (∀ y ∈ pre, f y ≤ f m) ∧ ∀ y ∈ post, f y < f m := by
  cases xs with
  | nil => cases h
  | cons x xs =>
    cases h
    exact foldl_max x xs hcmp

end

end Vertz.Rust
