import Vertz.Db.Query.Crud
import Vertz.Lib.Like

/-!
# `Vertz.Proofs.Casing`: column names and back

`camelToSnake` opens a word with an underscore before each capital that
follows a small letter or a digit, and `snakeToCamel` closes one with
each underscore between a letter or digit and a letter. A match of
`snakeToCamel` consumes the letter behind its underscore, so that letter
cannot also stand before the next one.
-/

namespace Vertz.Proofs

open Vertz.Lib
open Vertz.Db.Sql
open Vertz.Db.Query List

/-- Letters and digits, a small letter first, and no two capitals side by
side. -/
structure CamelCase (k : String) : Prop where
  head : k.toList.head?.any isLower = true
  plain : ∀ c ∈ k.toList, (isLetter c || isDigit c) = true
  apart : k.toList.IsChain fun c d => ¬ (isUpper c = true ∧ isUpper d = true)

instance (k : String) : Decidable (CamelCase k) :=
  decidable_of_iff
    (k.toList.head?.any isLower = true ∧ k.toList.all (fun c => isLetter c || isDigit c) = true ∧
      k.toList.IsChain fun c d => ¬ (isUpper c = true ∧ isUpper d = true))
    ⟨fun ⟨h, p, a⟩ => ⟨h, all_eq_true.mp p, a⟩,
      fun ⟨h, p, a⟩ => ⟨h, all_eq_true.mpr p, a⟩⟩

/-! ### Characters -/

theorem isUpper_iff_toNat (c : Char) : isUpper c = true ↔ 65 ≤ c.toNat ∧ c.toNat ≤ 90 := by
  unfold isUpper
  rw [Bool.and_eq_true, decide_eq_true_eq, decide_eq_true_eq]
  rfl

/-- A capital is the capital of its small letter. -/
theorem toLower_of_isUpper {c : Char} (h : isUpper c = true) :
    isLower c.toLower = true ∧ c.toLower.toUpper = c := by
  have hall : ∀ i : Fin 26, isLower (Char.ofNat (65 + i)).toLower = true ∧
      (Char.ofNat (65 + i)).toLower.toUpper = Char.ofNat (65 + i) := by decide
  rw [isUpper_iff_toNat] at h
  have hc : c = Char.ofNat (65 + (c.toNat - 65)) := by
    rw [show 65 + (c.toNat - 65) = c.toNat by omega, Char.ofNat_toNat]
  rw [hc]
  exact hall ⟨c.toNat - 65, by omega⟩

theorem toLower_of_not_isUpper {c : Char} (h : isUpper c = false) : c.toLower = c := by
  apply Like.toLower_of_not_isUpper
  rw [← Bool.not_eq_true, Like.isUpper_iff]
  rw [← Bool.not_eq_true, isUpper_iff_toNat] at h
  exact h

theorem not_isUpper_of_isLower {c : Char} (h : isLower c = true) : isUpper c = false := by
  have hlow : 97 ≤ c.toNat := by
    unfold isLower at h
    rw [Bool.and_eq_true, decide_eq_true_eq] at h
    exact h.1
  rw [← Bool.not_eq_true, isUpper_iff_toNat]
  omega

/-- The characters a match can start with are not underscores. -/
theorem ne_underscore {c : Char} (h : (isLetter c || isDigit c) = true) : c ≠ '_' := by
  rintro rfl
  revert h
  decide

/-! ### Characters through the replacements -/

/-- An underscore between a letter or digit and a letter goes, and the
letter behind it is consumed. -/
theorem camelChars_boundary {p c : Char} (hp : (isLetter p || isDigit p) = true)
    (hc : isLetter c = true) (cs : List Char) :
    camelChars (p :: '_' :: c :: cs) = p :: c.toUpper :: camelChars cs := by
  rw [camelChars, if_pos (by rw [hp, hc]; rfl)]

theorem camelChars_plain (p : Char) {c : Char} (hc : c ≠ '_') (cs : List Char) :
    camelChars (p :: c :: cs) = p :: camelChars (c :: cs) := by
  rw [camelChars.eq_def]
  split
  · rename_i heq
    exact absurd (List.cons.inj (List.cons.inj heq).2).1 hc
  · rename_i heq
    rw [(List.cons.inj heq).1, (List.cons.inj heq).2]
  · rename_i heq
    cases heq

theorem snakeChars_plain (prev : Option Char) {c : Char} (hc : isUpper c = false)
    (cs : List Char) : snakeChars prev (c :: cs) = c :: snakeChars (some c) cs := by
  have hb : wordBoundary prev c cs.head? = false := by rw [wordBoundary.eq_def, hc]; rfl
  rw [snakeChars, hb, toLower_of_not_isUpper hc]
  rfl

theorem snakeChars_boundary {p c : Char} (hp : (isLetter p || isDigit p) = true)
    (hpu : isUpper p = false) (hc : isUpper c = true) (cs : List Char) :
    snakeChars (some p) (c :: cs) = '_' :: c.toLower :: snakeChars (some c) cs := by
  have hb : wordBoundary (some p) c cs.head? = true := by
    rw [isLetter, hpu, Bool.false_or] at hp
    simp [wordBoundary, hc, hp]
  rw [snakeChars, hb, if_pos rfl]

/-- The characters behind `p` come back: behind a small letter or digit
that is still to be read, and behind a capital that its own underscore
consumed. -/
theorem camelChars_snakeChars (p : Char) (cs : List Char)
    (hp : (isLetter p || isDigit p) = true)
    (plain : ∀ c ∈ cs, (isLetter c || isDigit c) = true)
    (apart : (p :: cs).IsChain fun c d => ¬ (isUpper c = true ∧ isUpper d = true)) :
    (isUpper p = false → camelChars (p :: snakeChars (some p) cs) = p :: cs) ∧
      (isUpper p = true → camelChars (snakeChars (some p) cs) = cs) := by
  induction cs generalizing p with
  | nil => exact ⟨fun _ => rfl, fun _ => rfl⟩
  | cons c cs ih =>
    have hc := plain c mem_cons_self
    rw [isChain_cons_cons] at apart
    have ih := ih c hc (fun d hd => plain d (mem_cons_of_mem c hd)) apart.2
    cases hcu : isUpper c with
    | false =>
      have hread := ih.1 hcu
      rw [snakeChars_plain (some p) hcu]
      exact ⟨fun _ => by rw [camelChars_plain p (ne_underscore hc), hread], fun _ => hread⟩
    | true =>
      -- No capital stands before a capital, so `p` is still to be read.
      have hpu : isUpper p = false := by
        rw [← Bool.not_eq_true]
        exact fun hpu => apart.1 ⟨hpu, hcu⟩
      obtain ⟨hlower, hupper⟩ := toLower_of_isUpper hcu
      have hletter : isLetter c.toLower = true := by rw [isLetter, hlower, Bool.or_true]
      have hread : camelChars (p :: snakeChars (some p) (c :: cs)) = p :: c :: cs := by
        rw [snakeChars_boundary hp hpu hcu, camelChars_boundary hp hletter, hupper,
          ih.2 hcu]
      exact ⟨fun _ => hread, fun h => by rw [hpu] at h; cases h⟩

/-! ### Names and rows -/

theorem snakeToCamel_ofList {cs : List Char} (hne : cs ≠ []) :
    snakeToCamel (String.ofList cs) none = String.ofList (camelChars cs) := by
  have hstr : String.ofList cs ≠ "" := by
    intro heq
    apply hne
    rw [← String.toList_ofList (l := cs), heq]
    rfl
  rw [snakeToCamel, if_neg hstr]
  show String.ofList (camelChars (String.ofList cs).toList) = _
  rw [String.toList_ofList]

/-- The round trip of one name. -/
theorem snakeToCamel_camelToSnake {k : String} (hk : CamelCase k) :
    snakeToCamel (camelToSnake k none) none = k := by
  obtain ⟨head, plain, apart⟩ := hk
  cases hcs : k.toList with
  | nil => rw [hcs] at head; cases head
  | cons c cs =>
    rw [hcs] at head plain apart
    have hcu : isUpper c = false := not_isUpper_of_isLower head
    have hne : k ≠ "" := by
      rintro rfl
      cases hcs
    have hsnake : camelToSnake k none = String.ofList (c :: snakeChars (some c) cs) := by
      rw [camelToSnake, if_neg hne, hcs, snakeChars_plain none hcu]
      rfl
    have hcamel := (camelChars_snakeChars c cs (plain c mem_cons_self)
      (fun d hd => plain d (mem_cons_of_mem c hd)) apart).1 hcu
    rw [hsnake, snakeToCamel_ofList (cons_ne_nil c _), hcamel, ← hcs, String.ofList_toList]

theorem camelToSnake_injOn {k l : String} (hk : CamelCase k) (hl : CamelCase l)
    (h : camelToSnake k none = camelToSnake l none) : k = l := by
  rw [← snakeToCamel_camelToSnake hk, h, snakeToCamel_camelToSnake hl]

/-- The columns a row's values are written to. -/
def columnsOf {α : Type} (row : Record α) : Record α :=
  Record.ofList (row.entries.map fun e => (camelToSnake e.1 none, e.2))

theorem mapRow_columnsOf {α : Type} (row : Record α) (h : ∀ k ∈ row.keys, CamelCase k) :
    mapRow (columnsOf row) = row := by
  have hkey : ∀ e ∈ row.entries, CamelCase e.1 := fun e he => h e.1 (mem_map_of_mem he)
  have hnodup : ((row.entries.map fun e => (camelToSnake e.1 none, e.2)).map Prod.fst).Nodup := by
    rw [map_map]
    show (row.entries.map ((fun k => camelToSnake k none) ∘ Prod.fst)).Nodup
    rw [← map_map]
    apply row.nodup.map_on
    intro k hk l hl heq
    exact camelToSnake_injOn (h k hk) (h l hl) heq
  have hback : (columnsOf row).entries.map (fun e => (snakeToCamel e.1 none, e.2))
      = row.entries := by
    rw [columnsOf, Record.entries_ofList hnodup, map_map]
    have heach : ∀ e ∈ row.entries, (snakeToCamel (camelToSnake e.1 none) none, e.2) = e := by
      intro e he
      rw [snakeToCamel_camelToSnake (hkey e he)]
    exact (map_congr_left heach).trans (map_id' _)
  apply Record.eq_of_entries
  rw [mapRow, hback, Record.entries_ofList row.nodup]

/-- camelCase names come back, distinct ones have distinct columns, and a
row written under such names is read back as it was. -/
theorem camelCase_readBack {α : Type} (row : Record α) (h : ∀ k ∈ row.keys, CamelCase k) :
    (∀ k, CamelCase k → snakeToCamel (camelToSnake k none) none = k) ∧
      (∀ k l, CamelCase k → CamelCase l → k ≠ l → camelToSnake k none ≠ camelToSnake l none) ∧
      mapRow (columnsOf row) = row :=
  ⟨fun _ hk => snakeToCamel_camelToSnake hk,
    fun _ _ hk hl hne heq => hne (camelToSnake_injOn hk hl heq),
    mapRow_columnsOf row h⟩

/-- A row with single-letter words and digits on either side of them. -/
theorem readBack_account :
    mapRow (columnsOf (Record.ofList [("createdAt", 1), ("aB2Cd", 2), ("x9Y", 3)]))
      = Record.ofList [("createdAt", 1), ("aB2Cd", 2), ("x9Y", 3)] :=
  (camelCase_readBack _ (by decide)).2.2

end Vertz.Proofs
