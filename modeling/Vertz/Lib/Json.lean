import Mathlib.Algebra.GroupWithZero.Nat
import Mathlib.Algebra.Order.Ring.Rat
import Mathlib.Data.List.Basic

/-!
# `Vertz.Lib.Json`: documents and their JSON text

Text is a list of UTF-16 code units. `Doc.text` is the text of a document
without white space: characters that need it are escaped, and so is a
surrogate without its partner. How a number is written is a parameter,
`NumberText`.

* `quote_append_inj`: a quoted string ends where it ends.
* `text_append_inj`: no text of a document is a proper prefix of another,
  up to what may follow a value.
* `text_injective`: different documents have different texts.
-/

namespace Vertz.Lib.Json

open List

/-- A code unit of UTF-16. -/
abbrev CodeUnit := Fin 0x10000

instance codeUnits_neZero : NeZero 0x10000 := ⟨by decide⟩

abbrev Text := List CodeUnit

/-- The text of a string without surrogates. -/
def ofString (s : String) : Text := s.toList.map fun c => Fin.ofNat _ c.toNat

/-! ### Strings -/

def isHigh (c : CodeUnit) : Bool := 0xD800 ≤ c.val && c.val < 0xDC00

def isLow (c : CodeUnit) : Bool := 0xDC00 ≤ c.val && c.val < 0xE000

/-- A code point: a surrogate pair, or a code unit of its own. -/
inductive CodePoint where
  | unit (c : CodeUnit)
  | pair (high low : CodeUnit)
  deriving DecidableEq

def codePoints : Text → List CodePoint
  | [] => []
  | [c] => [.unit c]
  | c :: d :: rest =>
    if isHigh c && isLow d then .pair c d :: codePoints rest else .unit c :: codePoints (d :: rest)

/-- The escapes of one letter. -/
def shortEscapes : List (CodeUnit × CodeUnit) :=
  [(8, 98), (9, 116), (10, 110), (12, 102), (13, 114), (34, 34), (92, 92)]

def hexDigit (n : Fin 16) : CodeUnit :=
  if n.val < 10 then ⟨48 + n.val, by omega⟩ else ⟨87 + n.val, by omega⟩

/-- The four hexadecimal digits of a code unit. -/
def hex4 (c : CodeUnit) : Text :=
  [hexDigit ⟨c.val / 4096, by omega⟩, hexDigit ⟨c.val / 256 % 16, by omega⟩,
    hexDigit ⟨c.val / 16 % 16, by omega⟩, hexDigit ⟨c.val % 16, by omega⟩]

/-- A control character, or a surrogate without its partner. -/
def needsHex (c : CodeUnit) : Bool := c.val < 0x20 || isHigh c || isLow c

def CodePoint.text : CodePoint → Text
  | .pair high low => [high, low]
  | .unit c =>
    match shortEscapes.lookup c with
    | some e => [92, e]
    | none => if needsHex c then 92 :: 117 :: hex4 c else [c]

def quote (s : Text) : Text := 34 :: ((codePoints s).flatMap CodePoint.text ++ [34])

/-- What `codePoints` gives: pairs are made of a high and a low surrogate. -/
def CodePoint.Valid : CodePoint → Prop
  | .unit _ => True
  | .pair high low => isHigh high = true ∧ isLow low = true

def CodePoint.units : CodePoint → Text
  | .unit c => [c]
  | .pair high low => [high, low]

theorem units_codePoints (s : Text) : (codePoints s).flatMap CodePoint.units = s := by
  fun_induction codePoints s with
  | case1 => rfl
  | case2 => rfl
  | case3 c d rest h ih => simp [CodePoint.units, ih]
  | case4 c d rest h ih => simpa [CodePoint.units] using ih

theorem valid_codePoints (s : Text) : ∀ p ∈ codePoints s, p.Valid := by
  fun_induction codePoints s with
  | case1 => simp
  | case2 => simp [CodePoint.Valid]
  | case3 c d rest h ih =>
    intro p hp
    rcases mem_cons.mp hp with rfl | hp
    · simpa [CodePoint.Valid] using h
    · exact ih p hp
  | case4 c d rest h ih =>
    intro p hp
    rcases mem_cons.mp hp with rfl | hp
    · trivial
    · exact ih p hp

theorem hexDigit_injective : Function.Injective hexDigit := by
  intro a b h
  have hval := congrArg Fin.val h
  unfold hexDigit at hval
  split at hval <;> split at hval <;> simp only at hval <;> omega

theorem hex4_injective {c d : CodeUnit} (h : hex4 c = hex4 d) : c = d := by
  simp only [hex4, List.cons.injEq, hexDigit_injective.eq_iff, Fin.mk.injEq, and_true] at h
  apply Fin.ext
  omega

theorem mem_shortEscapes {c e : CodeUnit} (h : shortEscapes.lookup c = some e) :
    (c, e) ∈ shortEscapes := by
  obtain ⟨l₁, l₂, heq, _⟩ := lookup_eq_some_iff.mp h
  rw [heq]
  simp

theorem shortEscapes_inj {c d e : CodeUnit} (hc : shortEscapes.lookup c = some e)
    (hd : shortEscapes.lookup d = some e) : c = d := by
  have hall : (shortEscapes.all fun p => shortEscapes.all fun q =>
      decide (p.2 = q.2 → p.1 = q.1)) = true := by decide
  have hc := all_eq_true.mp hall _ (mem_shortEscapes hc)
  exact of_decide_eq_true (all_eq_true.mp hc _ (mem_shortEscapes hd)) rfl

theorem shortEscapes_ne {c e : CodeUnit} (h : shortEscapes.lookup c = some e) : e ≠ 117 := by
  have hall : (shortEscapes.all fun p => decide (p.2 ≠ 117)) = true := by decide
  exact of_decide_eq_true (all_eq_true.mp hall _ (mem_shortEscapes h))

/-- A pair, an escape of one letter, a hexadecimal escape, or a unit that
stands for itself. -/
theorem CodePoint.text_cases {p : CodePoint} (hp : p.Valid) :
    (∃ high low, p = .pair high low ∧ isHigh high = true ∧ p.text = [high, low]) ∨
    (∃ c e, p = .unit c ∧ shortEscapes.lookup c = some e ∧ p.text = [92, e]) ∨
    (∃ c, p = .unit c ∧ p.text = 92 :: 117 :: hex4 c) ∨
    (∃ c, p = .unit c ∧ c ≠ 34 ∧ c ≠ 92 ∧ isHigh c = false ∧ p.text = [c]) := by
  cases p with
  | pair high low => exact .inl ⟨high, low, rfl, hp.1, rfl⟩
  | unit c =>
    right
    cases hlookup : shortEscapes.lookup c with
    | some e => exact .inl ⟨c, e, rfl, hlookup, by simp only [CodePoint.text, hlookup]⟩
    | none =>
      right
      by_cases hhex : needsHex c = true
      · exact .inl ⟨c, rfl, by simp only [CodePoint.text, hlookup, if_pos hhex]⟩
      · refine .inr ⟨c, rfl, ?_, ?_, ?_, by simp only [CodePoint.text, hlookup, if_neg hhex]⟩
        · rintro rfl
          exact absurd hlookup (by decide)
        · rintro rfl
          exact absurd hlookup (by decide)
        · rw [Bool.eq_false_iff]
          intro hhigh
          exact hhex (by simp [needsHex, hhigh])

theorem CodePoint.text_ne_nil {p : CodePoint} (hp : p.Valid) :
    ∃ c rest, p.text = c :: rest ∧ c ≠ 34 := by
  rcases p.text_cases hp with ⟨high, low, _, hhigh, h⟩ | ⟨_, e, _, _, h⟩ | ⟨c, _, h⟩ |
    ⟨c, _, hne, _, _, h⟩
  · refine ⟨high, [low], h, ?_⟩
    rintro rfl
    exact absurd hhigh (by decide)
  · exact ⟨92, [e], h, by decide⟩
  · exact ⟨92, 117 :: hex4 c, h, by decide⟩
  · exact ⟨c, [], h, hne⟩

theorem CodePoint.text_append_inj {p q : CodePoint} (hp : p.Valid) (hq : q.Valid) {s t : Text}
    (h : p.text ++ s = q.text ++ t) : p = q ∧ s = t := by
  have h92 : isHigh 92 = false := by decide
  rcases p.text_cases hp with ⟨high, low, rfl, hhigh, hptext⟩ | ⟨c, e, rfl, hlookup, hptext⟩ |
    ⟨c, rfl, hptext⟩ | ⟨c, rfl, _, hne, hplain, hptext⟩ <;>
  rcases q.text_cases hq with ⟨high', low', rfl, hhigh', hqtext⟩ | ⟨c', e', rfl, hlookup', hqtext⟩ |
    ⟨c', rfl, hqtext⟩ | ⟨c', rfl, _, hne', hplain', hqtext⟩ <;>
  rw [hptext, hqtext] at h <;>
  simp only [cons_append, nil_append, List.cons.injEq] at h
  -- a pair
  · obtain ⟨rfl, rfl, rfl⟩ := h
    exact ⟨rfl, rfl⟩
  · rw [h.1, h92] at hhigh
    cases hhigh
  · rw [h.1, h92] at hhigh
    cases hhigh
  · rw [h.1, hplain'] at hhigh
    cases hhigh
  -- an escape of one letter
  · rw [← h.1, h92] at hhigh'
    cases hhigh'
  · obtain ⟨_, rfl, rfl⟩ := h
    rw [shortEscapes_inj hlookup hlookup']
    exact ⟨rfl, rfl⟩
  · exact absurd h.2.1 (shortEscapes_ne hlookup)
  · exact absurd h.1.symm hne'
  -- a hexadecimal escape
  · rw [← h.1, h92] at hhigh'
    cases hhigh'
  · exact absurd h.2.1.symm (shortEscapes_ne hlookup')
  · obtain ⟨hhex, rfl⟩ := append_inj h.2.2 rfl
    rw [hex4_injective hhex]
    exact ⟨rfl, rfl⟩
  · exact absurd h.1.symm hne'
  -- a unit that stands for itself
  · rw [← h.1, hplain] at hhigh'
    cases hhigh'
  · exact absurd h.1 hne
  · exact absurd h.1 hne
  · obtain ⟨rfl, rfl⟩ := h
    exact ⟨rfl, rfl⟩

theorem flatMap_text_append_inj : ∀ {ps qs : List CodePoint}, (∀ p ∈ ps, p.Valid) →
    (∀ q ∈ qs, q.Valid) → ∀ {s t : Text},
    ps.flatMap CodePoint.text ++ 34 :: s = qs.flatMap CodePoint.text ++ 34 :: t → ps = qs ∧ s = t
  | [], [], _, _, s, t, h => ⟨rfl, (List.cons.inj h).2⟩
  | [], q :: qs, _, hqs, s, t, h => by
      obtain ⟨c, rest, htext, hne⟩ := q.text_ne_nil (hqs q (mem_cons_self ..))
      simp only [flatMap_cons, htext, flatMap_nil, nil_append, cons_append,
        List.cons.injEq] at h
      exact absurd h.1.symm hne
  | p :: ps, [], hps, _, s, t, h => by
      obtain ⟨c, rest, htext, hne⟩ := p.text_ne_nil (hps p (mem_cons_self ..))
      simp only [flatMap_cons, htext, flatMap_nil, nil_append, cons_append,
        List.cons.injEq] at h
      exact absurd h.1 hne
  | p :: ps, q :: qs, hps, hqs, s, t, h => by
      simp only [flatMap_cons, append_assoc] at h
      obtain ⟨rfl, hrest⟩ := CodePoint.text_append_inj (hps p (mem_cons_self ..))
        (hqs q (mem_cons_self ..)) h
      obtain ⟨rfl, hst⟩ := flatMap_text_append_inj
        (fun p' hp' => hps p' (mem_cons_of_mem _ hp'))
        (fun q' hq' => hqs q' (mem_cons_of_mem _ hq')) hrest
      exact ⟨rfl, hst⟩

theorem quote_append_inj {a b s t : Text} (h : quote a ++ s = quote b ++ t) : a = b ∧ s = t := by
  simp only [quote, cons_append, append_assoc, nil_append, List.cons.injEq,
    true_and] at h
  obtain ⟨hpoints, hst⟩ := flatMap_text_append_inj (valid_codePoints a) (valid_codePoints b) h
  refine ⟨?_, hst⟩
  rw [← units_codePoints a, ← units_codePoints b, hpoints]

/-! ### Documents -/

/-- The units a number is written with. -/
def numberUnits : Text := ofString "0123456789+-.e"

/-- How numbers are written. -/
structure NumberText where
  text : ℚ → Text
  injective : Function.Injective text
  nonempty : ∀ q, text q ≠ []
  units : ∀ q, ∀ c ∈ text q, c ∈ numberUnits

inductive Doc where
  | null
  | bool (b : Bool)
  | num (q : ℚ)
  | str (s : Text)
  | arr (items : List Doc)
  | obj (members : List (Text × Doc))

namespace Doc

variable (number : NumberText)

mutual

def text : Doc → Text
  | .null => ofString "null"
  | .bool b => if b then ofString "true" else ofString "false"
  | .num q => number.text q
  | .str s => quote s
  | .arr [] => ofString "[]"
  | .arr (x :: xs) => 91 :: (text x ++ textItems xs)
  | .obj [] => ofString "\x7b\x7d"
  | .obj (e :: es) => 123 :: (quote e.1 ++ 58 :: (text e.2 ++ textMembers es))

/-- The items of an array from the second on. -/
def textItems : List Doc → Text
  | [] => [93]
  | x :: xs => 44 :: (text x ++ textItems xs)

/-- The members of an object from the second on. -/
def textMembers : List (Text × Doc) → Text
  | [] => [125]
  | e :: es => 44 :: (quote e.1 ++ 58 :: (text e.2 ++ textMembers es))

end

/-- The first letter of a document's text says what the document is. -/
def kindOf (c : CodeUnit) : ℕ :=
  if c ∈ numberUnits then 2
  else if c = 110 then 0
  else if c = 116 ∨ c = 102 then 1
  else if c = 34 then 3
  else if c = 91 then 4
  else if c = 123 then 5
  else 6

def kind : Doc → ℕ
  | .null => 0
  | .bool _ => 1
  | .num _ => 2
  | .str _ => 3
  | .arr _ => 4
  | .obj _ => 5

theorem kind_ne_six (d : Doc) : d.kind ≠ 6 := by
  cases d <;> simp [kind]

theorem head_text (d : Doc) : ∃ c rest, text number d = c :: rest ∧ kindOf c = d.kind := by
  cases d with
  | null => exact ⟨110, ofString "ull", by simp only [text]; rfl, rfl⟩
  | bool b =>
    cases b with
    | false => exact ⟨102, ofString "alse", by simp only [text]; rfl, rfl⟩
    | true => exact ⟨116, ofString "rue", by simp only [text]; rfl, rfl⟩
  | num q =>
    cases htext : number.text q with
    | nil => exact absurd htext (number.nonempty q)
    | cons c rest =>
      refine ⟨c, rest, by rw [text, htext], if_pos (number.units q c ?_)⟩
      rw [htext]
      exact mem_cons_self ..
  | str s => exact ⟨34, _, by rw [text, quote], rfl⟩
  | arr items =>
    cases items with
    | nil => exact ⟨91, ofString "]", by rw [text]; rfl, rfl⟩
    | cons x xs => exact ⟨91, _, by rw [text], rfl⟩
  | obj members =>
    cases members with
    | nil => exact ⟨123, ofString "\x7d", by rw [text]; rfl, rfl⟩
    | cons e es => exact ⟨123, _, by rw [text], rfl⟩

/-- What may follow a value: nothing, a comma or a closing bracket. -/
def Follows (s : Text) : Prop := ∀ c rest, s = c :: rest → c = 44 ∨ c = 93 ∨ c = 125

theorem follows_cons {c : CodeUnit} (h : c = 44 ∨ c = 93 ∨ c = 125) (rest : Text) :
    Follows (c :: rest) := by
  intro c' rest' heq
  rwa [← (List.cons.inj heq).1]

theorem follows_textItems (xs : List Doc) (s : Text) : Follows (textItems number xs ++ s) := by
  cases xs with
  | nil => exact follows_cons (by decide) _
  | cons x xs =>
    rw [textItems]
    exact follows_cons (by decide) _

theorem follows_textMembers (es : List (Text × Doc)) (s : Text) :
    Follows (textMembers number es ++ s) := by
  cases es with
  | nil => exact follows_cons (by decide) _
  | cons e es =>
    rw [textMembers]
    exact follows_cons (by decide) _

theorem takeWhile_number {q : ℚ} {s : Text} (hs : Follows s) :
    (number.text q ++ s).takeWhile numberUnits.contains = number.text q := by
  rw [takeWhile_append_of_pos fun c hc => contains_iff_mem.mpr (number.units q c hc)]
  cases s with
  | nil => simp
  | cons c rest =>
    have hc : c ∉ numberUnits := by
      rcases hs c rest rfl with rfl | rfl | rfl <;> decide
    rw [takeWhile_cons_of_neg (by simpa using hc), append_nil]

/-- The first letters of two equal texts are those of documents of one
kind. -/
theorem kind_eq {d d' : Doc} {s t : Text} (h : text number d ++ s = text number d' ++ t) :
    d.kind = d'.kind := by
  obtain ⟨c, rest, htext, hkind⟩ := head_text number d
  obtain ⟨c', rest', htext', hkind'⟩ := head_text number d'
  rw [htext, htext', cons_append, cons_append, List.cons.injEq] at h
  rw [← hkind, ← hkind', h.1]

mutual

/-- No text of a document is a proper prefix of another, up to what may
follow. -/
theorem text_append_inj : (d d' : Doc) → (s t : Text) → Follows s → Follows t →
    text number d ++ s = text number d' ++ t → d = d' ∧ s = t
  | .null, d', s, t, _, _, h => by
      cases d' with
      | null => exact ⟨rfl, append_cancel_left h⟩
      | _ => exact absurd (kind_eq number h) (by simp [kind])
  | .bool b, d', s, t, _, _, h => by
      cases d' with
      | bool b' =>
        cases b <;> cases b' <;> simp only [text] at h
        · exact ⟨rfl, append_cancel_left h⟩
        · exact absurd (List.cons.inj h).1 (by decide)
        · exact absurd (List.cons.inj h).1 (by decide)
        · exact ⟨rfl, append_cancel_left h⟩
      | _ => exact absurd (kind_eq number h) (by simp [kind])
  | .num q, d', s, t, hs, ht, h => by
      cases d' with
      | num q' =>
        simp only [text] at h
        have htext : number.text q = number.text q' := by
          rw [← takeWhile_number number hs, h, takeWhile_number number ht]
        rw [htext] at h
        exact ⟨by rw [number.injective htext], append_cancel_left h⟩
      | _ => exact absurd (kind_eq number h) (by simp [kind])
  | .str a, d', s, t, _, _, h => by
      cases d' with
      | str b =>
        simp only [text] at h
        obtain ⟨rfl, hst⟩ := quote_append_inj h
        exact ⟨rfl, hst⟩
      | _ => exact absurd (kind_eq number h) (by simp [kind])
  | .arr items, d', s, t, _, _, h => by
      cases d' with
      | arr items' =>
        cases items with
        | nil =>
          cases items' with
          | nil => exact ⟨rfl, append_cancel_left h⟩
          | cons y ys =>
            -- a bracket where an item starts
            simp only [text] at h
            obtain ⟨c, rest, htext, hkind⟩ := head_text number y
            rw [htext] at h
            have hc : c = 93 := ((List.cons.inj (List.cons.inj h).2).1).symm
            rw [hc] at hkind
            exact absurd hkind.symm (kind_ne_six y)
        | cons x xs =>
          cases items' with
          | nil =>
            simp only [text] at h
            obtain ⟨c, rest, htext, hkind⟩ := head_text number x
            rw [htext] at h
            have hc : c = 93 := (List.cons.inj (List.cons.inj h).2).1
            rw [hc] at hkind
            exact absurd hkind.symm (kind_ne_six x)
          | cons y ys =>
            simp only [text, cons_append, append_assoc, List.cons.injEq,
              true_and] at h
            obtain ⟨hxy, hrest⟩ := text_append_inj x y _ _ (follows_textItems number xs s)
              (follows_textItems number ys t) h
            obtain ⟨hitems, hst⟩ := textItems_append_inj xs ys s t hrest
            exact ⟨by rw [hxy, hitems], hst⟩
      | _ => exact absurd (kind_eq number h) (by simp [kind])
  | .obj members, d', s, t, _, _, h => by
      cases d' with
      | obj members' =>
        cases members with
        | nil =>
          cases members' with
          | nil => exact ⟨rfl, append_cancel_left h⟩
          | cons e es =>
            simp only [text] at h
            exact absurd (List.cons.inj (List.cons.inj h).2).1 (by decide)
        | cons e es =>
          cases members' with
          | nil =>
            simp only [text] at h
            exact absurd (List.cons.inj (List.cons.inj h).2).1 (by decide)
          | cons e' es' =>
            simp only [text, cons_append, append_assoc, List.cons.injEq,
              true_and] at h
            obtain ⟨hkey, hvalue⟩ := quote_append_inj h
            obtain ⟨hdoc, hrest⟩ := text_append_inj e.2 e'.2 _ _
              (follows_textMembers number es s) (follows_textMembers number es' t)
              (List.cons.inj hvalue).2
            obtain ⟨hmembers, hst⟩ := textMembers_append_inj es es' s t hrest
            exact ⟨by rw [Prod.ext hkey hdoc, hmembers], hst⟩
      | _ => exact absurd (kind_eq number h) (by simp [kind])

theorem textItems_append_inj : (xs ys : List Doc) → (s t : Text) →
    textItems number xs ++ s = textItems number ys ++ t → xs = ys ∧ s = t
  | [], [], s, t, h => ⟨rfl, (List.cons.inj h).2⟩
  | [], y :: ys, s, t, h => by
      rw [textItems, textItems] at h
      exact absurd (List.cons.inj h).1 (by decide)
  | x :: xs, [], s, t, h => by
      rw [textItems, textItems] at h
      exact absurd (List.cons.inj h).1 (by decide)
  | x :: xs, y :: ys, s, t, h => by
      simp only [textItems, cons_append, append_assoc, List.cons.injEq, true_and] at h
      obtain ⟨hxy, hrest⟩ := text_append_inj x y _ _ (follows_textItems number xs s)
        (follows_textItems number ys t) h
      obtain ⟨hitems, hst⟩ := textItems_append_inj xs ys s t hrest
      exact ⟨by rw [hxy, hitems], hst⟩

theorem textMembers_append_inj : (es es' : List (Text × Doc)) → (s t : Text) →
    textMembers number es ++ s = textMembers number es' ++ t → es = es' ∧ s = t
  | [], [], s, t, h => ⟨rfl, (List.cons.inj h).2⟩
  | [], e' :: es', s, t, h => by
      rw [textMembers, textMembers] at h
      exact absurd (List.cons.inj h).1 (by decide)
  | e :: es, [], s, t, h => by
      rw [textMembers, textMembers] at h
      exact absurd (List.cons.inj h).1 (by decide)
  | e :: es, e' :: es', s, t, h => by
      simp only [textMembers, cons_append, append_assoc, List.cons.injEq,
        true_and] at h
      obtain ⟨hkey, hvalue⟩ := quote_append_inj h
      obtain ⟨hdoc, hrest⟩ := text_append_inj e.2 e'.2 _ _ (follows_textMembers number es s)
        (follows_textMembers number es' t) (List.cons.inj hvalue).2
      obtain ⟨hmembers, hst⟩ := textMembers_append_inj es es' s t hrest
      exact ⟨by rw [Prod.ext hkey hdoc, hmembers], hst⟩

end

theorem text_injective : Function.Injective (text number) := by
  intro d d' h
  have hnil : Follows [] := fun _ _ heq => nomatch heq
  exact (text_append_inj number d d' [] [] hnil hnil (by rw [h])).1

end Doc

end Vertz.Lib.Json
