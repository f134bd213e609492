import Vertz.Proofs.Placeholders

/-!
# `Vertz.Proofs.TaggedText`: the text of a tagged template

A nested fragment is renumbered by a search for `$digits` in its text,
which finds the placeholders of its own values and whatever else reads
that way. Renumbering looks only at where the digits are, not at what
they are, and changes nothing else.
-/

namespace Vertz.Proofs

open Vertz.Db
open Vertz.Db.Sql List

variable {H : Type}

/-! ### What a template means -/

mutual

/-- The literals, raw texts and values of a fragment, in order. -/
def templatePieces : SqlNode → SqlText Js
  | .raw value => [.text value]
  | .template literal rest => .text literal :: restPieces rest

def restPieces : SqlRest → SqlText Js
  | .nil => []
  | .value v literal rest => .hole v :: .text literal :: restPieces rest
  | .fragment f literal rest => templatePieces f ++ .text literal :: restPieces rest

end

/-- A text with its `k`-th placeholder written `$(offset + k)`. -/
def writtenFrom (offset : ℕ) (t : SqlText H) : String :=
  (renumber offset t).render postgresDialect

/-- The digits of each `$digits` in a text: what the pattern matches.
`pending` holds the digits behind a `$`, when one is being read. -/
def dollarDigits (pending : Option (List Char)) : List Char → List (List Char)
  | [] => pending.toList.filter (· ≠ [])
  | c :: cs =>
    match pending with
    | none => dollarDigits (if c = '$' then some [] else none) cs
    | some ds =>
      if c.isDigit then dollarDigits (some (ds ++ [c])) cs
      else
        [ds].filter (· ≠ []) ++ dollarDigits (if c = '$' then some [] else none) cs

/-- The numbers are `offset + 1`, `offset + 2`, …. -/
def CountsFrom : ℕ → List (List Char) → Prop
  | _, [] => True
  | offset, ds :: rest => ds = Nat.toDigits 10 (offset + 1) ∧ CountsFrom (offset + 1) rest

/-- Every fragment nested in a template has, in its intended text, no
`$digits` but the ones that count its placeholders. -/
def NestedInOrder : ℕ → SqlRest → Prop
  | _, .nil => True
  | offset, .value _ _ rest => NestedInOrder (offset + 1) rest
  | offset, .fragment f _ rest =>
    CountsFrom offset (dollarDigits none (writtenFrom offset (templatePieces f)).toList) ∧
      NestedInOrder (offset + (templatePieces f).holes.length) rest

def InOrder : SqlNode → Prop
  | .raw _ => True
  | .template _ rest => NestedInOrder 0 rest

/-! ### Written texts -/

/-- The characters of a written text. -/
def shown (offset : ℕ) (t : SqlText H) : List Char := (writtenFrom offset t).toList

@[simp] theorem shown_nil (o : ℕ) : shown o ([] : SqlText H) = [] := by
  simp [shown, writtenFrom, renumber, SqlText.render]

@[simp] theorem shown_text (o : ℕ) (s : String) (t : SqlText H) :
    shown o (.text s :: t) = s.toList ++ shown o t := by
  simp [shown, writtenFrom, renumber, SqlText.render, String.toList_join, Piece.render]

@[simp] theorem shown_hole (o : ℕ) (h : H) (t : SqlText H) :
    shown o (.hole h :: t) = '$' :: (Nat.toDigits 10 (o + 1) ++ shown (o + 1) t) := by
  simp [shown, writtenFrom, renumber, SqlText.render, String.toList_join, Piece.render,
    postgresDialect, Nat.toString_eq_repr, Nat.toList_repr]

theorem shown_append (o : ℕ) (a b : SqlText H) :
    shown o (a ++ b) = shown o a ++ shown (o + a.holes.length) b := by
  induction a generalizing o with
  | nil => simp
  | cons p a ih =>
    cases p with
    | text s => simp [ih]
    | hole h => simp [ih, Nat.add_assoc, Nat.add_comm 1]

theorem toDigits_digits (n : ℕ) : ∀ c ∈ Nat.toDigits 10 n, c.isDigit = true :=
  fun _ hc => Nat.isDigit_of_mem_toDigits (by decide) (by decide) hc

/-! ### Texts that differ in digits behind a `$` -/

/-- Digits, at least one. -/
structure Digits (ds : List Char) : Prop where
  ne_nil : ds ≠ []
  digit : ∀ c ∈ ds, c.isDigit = true

theorem Digits.snoc {ds : List Char} (h : Digits ds) {c : Char} (hc : c.isDigit = true) :
    Digits (ds ++ [c]) := by
  refine ⟨by simp, fun x hx => ?_⟩
  rcases mem_append.mp hx with hx | hx
  · exact h.digit x hx
  · rw [mem_singleton.mp hx]
    exact hc

theorem digits_toDigits (n : ℕ) : Digits (Nat.toDigits 10 n) := ⟨by simp, toDigits_digits n⟩

/-- Texts that differ only in digits behind a `$`. The digits need not be
all that stand there. -/
inductive UpToDigits : List Char → List Char → Prop where
  | nil : UpToDigits [] []
  | char (c : Char) {a b : List Char} : UpToDigits a b → UpToDigits (c :: a) (c :: b)
  | digits {d e a b : List Char} : Digits d → Digits e → UpToDigits a b →
      UpToDigits ('$' :: (d ++ a)) ('$' :: (e ++ b))

theorem UpToDigits.refl (a : List Char) : UpToDigits a a := by
  induction a with
  | nil => exact .nil
  | cons c a ih => exact .char c ih

theorem UpToDigits.append {a b x y : List Char} (h : UpToDigits a b) (h' : UpToDigits x y) :
    UpToDigits (a ++ x) (b ++ y) := by
  induction h with
  | nil => exact h'
  | char c _ ih => exact .char c ih
  | digits hd he _ ih =>
    rw [cons_append, cons_append, append_assoc, append_assoc]
    exact .digits hd he ih

theorem UpToDigits.takeWhile_isDigit {a b : List Char} (h : UpToDigits a b) :
    a.takeWhile Char.isDigit = b.takeWhile Char.isDigit := by
  induction h with
  | nil => rfl
  | char c _ ih => simp only [takeWhile_cons, ih]
  | digits _ _ _ _ => rfl

theorem UpToDigits.digits_append_inj {d e x y : List Char} (hd : Digits d) (he : Digits e)
    (h : UpToDigits x y) (heq : d ++ x = e ++ y) : d = e ∧ x = y := by
  have htake := congrArg (List.takeWhile Char.isDigit) heq
  rw [takeWhile_append_of_pos hd.digit, takeWhile_append_of_pos he.digit,
    h.takeWhile_isDigit] at htake
  have hde : d = e := append_cancel_right htake
  rw [hde] at heq
  exact ⟨hde, append_cancel_left heq⟩

/-- Where alike pieces make equal texts, the pieces are equal. -/
theorem UpToDigits.append_inj {a b x y : List Char} (h : UpToDigits a b) (h' : UpToDigits x y)
    (heq : a ++ x = b ++ y) : a = b ∧ x = y := by
  induction h with
  | nil => exact ⟨rfl, heq⟩
  | char c _ ih =>
    obtain ⟨hab, hxy⟩ := ih (List.cons.inj heq).2
    exact ⟨congrArg _ hab, hxy⟩
  | digits hd he hrest ih =>
    rw [cons_append, cons_append, append_assoc, append_assoc] at heq
    obtain ⟨hde, hrests⟩ :=
      UpToDigits.digits_append_inj hd he (hrest.append h') (List.cons.inj heq).2
    obtain ⟨hab, hxy⟩ := ih hrests
    exact ⟨by rw [hde, hab], hxy⟩

/-! ### The search -/

/-- States that differ at most in the number being read. -/
inductive SameState : ScanState → ScanState → Prop where
  | text : SameState .text .text
  | dollar : SameState .dollar .dollar
  | digits (n m : ℕ) : SameState (.digits n) (.digits m)

/-- What a state still has to write when its text goes on with something
else. -/
def flush : ScanState → SqlText ℕ
  | .text => []
  | .dollar => [.text "$"]
  | .digits n => [.hole n]

/-- What a state has read but not written: its digits for the search and
its text. -/
inductive Reading : ScanState → Option (List Char) → List Char → Prop where
  | text : Reading .text none []
  | dollar : Reading .dollar (some []) ['$']
  | digits (n : ℕ) {ds : List Char} : Digits ds → Reading (.digits n) (some ds) ('$' :: ds)

theorem scan_nil (s : ScanState) : scanFrom s [] = flush s := by
  cases s <;> rfl

theorem scan_dollar (s : ScanState) (cs : List Char) :
    scanFrom s ('$' :: cs) = flush s ++ scanFrom .dollar cs := by
  cases s <;> rfl

variable {s : ScanState}

/-- A character that is not a `$`, and no digit behind one, is text. -/
theorem scan_plain {c : Char} (hc : c ≠ '$') (hdigit : s = .text ∨ c.isDigit = false)
    (cs : List Char) :
    scanFrom s (c :: cs) = flush s ++ .text (String.singleton c) :: scanFrom .text cs := by
  cases s with
  | text => simp [scanFrom, flush, hc]
  | dollar =>
    have hd : c.isDigit = false := by simpa using hdigit
    simp [scanFrom, flush, hc, hd]
  | digits n =>
    have hd : c.isDigit = false := by simpa using hdigit
    simp [scanFrom, flush, hc, hd]

theorem scan_digit {c : Char} (hs : s ≠ .text) (hc : c.isDigit = true) :
    ∃ n, ∀ cs, scanFrom s (c :: cs) = scanFrom (.digits n) cs := by
  cases s with
  | text => exact absurd rfl hs
  | dollar => exact ⟨_, fun cs => by rw [scanFrom, if_pos hc]⟩
  | digits n => exact ⟨_, fun cs => by rw [scanFrom, if_pos hc]⟩

theorem scan_digits (hs : s ≠ .text) {ds : List Char} (hds : Digits ds) :
    ∃ n, ∀ cs, scanFrom s (ds ++ cs) = scanFrom (.digits n) cs := by
  obtain ⟨hne, hdigit⟩ := hds
  induction ds generalizing s with
  | nil => exact absurd rfl hne
  | cons c ds ih =>
    rw [forall_mem_cons] at hdigit
    obtain ⟨n, hn⟩ := scan_digit hs hdigit.1
    by_cases hnil : ds = []
    · exact ⟨n, fun cs => by rw [hnil]; exact hn cs⟩
    · obtain ⟨m, hm⟩ := ih (s := .digits n) (by simp) hnil hdigit.2
      exact ⟨m, fun cs => (hn (ds ++ cs)).trans (hm cs)⟩

/-- Same states write the same before texts that are written alike. -/
theorem SameState.flush_append {s s' : ScanState} (hs : SameState s s') {t u : SqlText ℕ}
    (htu : ∀ k, renumber k t = renumber k u) (k : ℕ) :
    renumber k (flush s ++ t) = renumber k (flush s' ++ u) := by
  cases hs with
  | text => exact htu k
  | dollar => exact congrArg (Piece.text "$" :: ·) (htu k)
  | digits n m => exact congrArg (Piece.hole (k + 1) :: ·) (htu (k + 1))

/-- The search writes the same for alike texts, from states that differ
at most in the number being read. -/
theorem UpToDigits.scan {a b : List Char} (h : UpToDigits a b) {s s' : ScanState}
    (hs : SameState s s') (k : ℕ) : renumber k (scanFrom s a) = renumber k (scanFrom s' b) := by
  induction h generalizing s s' k with
  | nil =>
    rw [scan_nil, scan_nil]
    have hends := hs.flush_append (t := []) (u := []) (fun _ => rfl) k
    rwa [append_nil, append_nil] at hends
  | @char c a b _ ih =>
    by_cases hc : c = '$'
    · subst hc
      rw [scan_dollar, scan_dollar]
      exact hs.flush_append (fun k => ih .dollar k) k
    · by_cases hdigit : s = .text ∨ c.isDigit = false
      · have hdigit' : s' = .text ∨ c.isDigit = false := by
          rcases hdigit with rfl | hdigit
          · cases hs
            exact .inl rfl
          · exact .inr hdigit
        rw [scan_plain hc hdigit, scan_plain hc hdigit']
        have hrest : ∀ k, renumber k (.text (String.singleton c) :: scanFrom .text a)
            = renumber k (.text (String.singleton c) :: scanFrom .text b) :=
          fun k => congrArg (Piece.text (String.singleton c) :: ·) (ih .text k)
        exact hs.flush_append hrest k
      · rw [not_or, Bool.not_eq_false] at hdigit
        have hs' : s' ≠ .text := by
          rintro rfl
          cases hs
          exact hdigit.1 rfl
        obtain ⟨n, hn⟩ := scan_digit hdigit.1 hdigit.2
        obtain ⟨m, hm⟩ := scan_digit hs' hdigit.2
        rw [hn, hm]
        exact ih (.digits n m) k
  | @digits d e a b hd he _ ih =>
    rw [scan_dollar, scan_dollar]
    obtain ⟨n, hn⟩ := scan_digits (s := .dollar) (by simp) hd
    obtain ⟨m, hm⟩ := scan_digits (s := .dollar) (by simp) he
    rw [hn, hm]
    exact hs.flush_append (fun k => ih (.digits n m) k) k

variable {q : Option (List Char)} {p : List Char}

theorem Reading.flush_upToDigits (h : Reading s q p) (k : ℕ) {t : SqlText ℕ} {cs : List Char}
    (ht : ∀ k, UpToDigits (shown k t) cs) : UpToDigits (shown k (flush s ++ t)) (p ++ cs) := by
  cases h with
  | text => exact ht k
  | dollar =>
    show UpToDigits (shown k (.text "$" :: t)) _
    rw [shown_text]
    exact .char '$' (ht k)
  | digits n hds =>
    show UpToDigits (shown k (.hole n :: t)) _
    rw [shown_hole]
    exact .digits (digits_toDigits _) hds (ht (k + 1))

theorem Reading.digit (h : Reading s q p) (hs : s ≠ .text) {c : Char} (hc : c.isDigit = true) :
    ∃ n q', (∀ cs, scanFrom s (c :: cs) = scanFrom (.digits n) cs) ∧
      (∀ cs, dollarDigits q (c :: cs) = dollarDigits q' cs) ∧
      Reading (.digits n) q' (p ++ [c]) := by
  obtain ⟨n, hn⟩ := scan_digit hs hc
  cases h with
  | text => exact absurd rfl hs
  | dollar =>
    refine ⟨n, some [c], hn, fun cs => ?_, .digits n ⟨by simp, by simpa using hc⟩⟩
    rw [dollarDigits, if_pos hc]
    rfl
  | @digits m ds hds =>
    refine ⟨n, some (ds ++ [c]), hn, fun cs => ?_, .digits n (hds.snoc hc)⟩
    rw [dollarDigits, if_pos hc]

theorem shown_nil_upToDigits (k : ℕ) : UpToDigits (shown k ([] : SqlText ℕ)) [] := by
  rw [shown_nil]
  exact .nil

/-- A text and its renumbering are alike. -/
theorem shown_upToDigits (cs : List Char) (h : Reading s q p) (k : ℕ) :
    UpToDigits (shown k (scanFrom s cs)) (p ++ cs) := by
  induction cs generalizing s q p k with
  | nil =>
    rw [scan_nil]
    have hends := h.flush_upToDigits k shown_nil_upToDigits
    rwa [append_nil] at hends
  | cons c cs ih =>
    by_cases hc : c = '$'
    · subst hc
      rw [scan_dollar]
      exact h.flush_upToDigits k fun k => ih .dollar k
    · by_cases hdigit : s = .text ∨ c.isDigit = false
      · rw [scan_plain hc hdigit]
        refine h.flush_upToDigits k fun k => ?_
        rw [shown_text, String.toList_singleton]
        exact .char c (ih .text k)
      · rw [not_or, Bool.not_eq_false] at hdigit
        obtain ⟨n, q', hn, -, hreading⟩ := h.digit hdigit.1 hdigit.2
        have hrest := ih hreading k
        rw [append_assoc, singleton_append] at hrest
        rw [hn]
        exact hrest

/-! ### What the search finds -/

theorem Reading.ends (h : Reading s q p) {c : Char} (hdigit : s = .text ∨ c.isDigit = false)
    (cs : List Char) :
    dollarDigits q (c :: cs) = q.toList.filter (· ≠ []) ++
      dollarDigits (if c = '$' then some [] else none) cs := by
  cases h with
  | text => rfl
  | dollar =>
    have hc : ¬ c.isDigit = true := by simpa using hdigit
    rw [dollarDigits, if_neg hc]
    rfl
  | digits n hds =>
    have hc : ¬ c.isDigit = true := by simpa using hdigit
    rw [dollarDigits, if_neg hc]
    rfl

/-- What a state flushes is what it has read exactly when the digits it
has read are the next number. -/
theorem Reading.flush_iff (h : Reading s q p) (k : ℕ) {t : SqlText ℕ} {cs : List Char}
    {more : List (List Char)} (halike : ∀ k, UpToDigits (shown k t) cs)
    (ht : ∀ k, shown k t = cs ↔ CountsFrom k more) :
    shown k (flush s ++ t) = p ++ cs ↔ CountsFrom k (q.toList.filter (· ≠ []) ++ more) := by
  cases h with
  | text => exact ht k
  | dollar =>
    show shown k (.text "$" :: t) = _ ↔ _
    rw [shown_text]
    show '$' :: shown k t = '$' :: cs ↔ CountsFrom k more
    rw [cons_inj_right]
    exact ht k
  | @digits n ds hds =>
    show shown k (.hole n :: t) = _ ↔ _
    have hfilter : ((some ds).toList.filter (· ≠ []) ++ more) = ds :: more := by
      simp [hds.ne_nil]
    rw [shown_hole, hfilter]
    show '$' :: (Nat.toDigits 10 (k + 1) ++ shown (k + 1) t) = '$' :: (ds ++ cs) ↔
      ds = Nat.toDigits 10 (k + 1) ∧ CountsFrom (k + 1) more
    rw [cons_inj_right, ← ht (k + 1)]
    constructor
    · intro heq
      obtain ⟨hds', hrest⟩ :=
        UpToDigits.digits_append_inj (digits_toDigits _) hds (halike (k + 1)) heq
      exact ⟨hds'.symm, hrest⟩
    · rintro ⟨hds', hrest⟩
      rw [hds', hrest]

/-- Renumbering leaves a text as it is exactly when its `$digits` already
count from the offset. -/
theorem shown_scan_iff (cs : List Char) (h : Reading s q p) (k : ℕ) :
    shown k (scanFrom s cs) = p ++ cs ↔ CountsFrom k (dollarDigits q cs) := by
  induction cs generalizing s q p k with
  | nil =>
    have hcount : ∀ k, shown k ([] : SqlText ℕ) = [] ↔ CountsFrom k [] := fun k => by simp [CountsFrom]
    have hends := h.flush_iff k shown_nil_upToDigits hcount
    rw [append_nil, append_nil (List.filter _ _)] at hends
    rw [scan_nil]
    exact hends
  | cons c cs ih =>
    by_cases hc : c = '$'
    · subst hc
      rw [scan_dollar, h.ends (.inr rfl), if_pos rfl]
      exact h.flush_iff k (fun k => shown_upToDigits cs .dollar k) fun k => ih .dollar k
    · by_cases hdigit : s = .text ∨ c.isDigit = false
      · rw [scan_plain hc hdigit, h.ends hdigit, if_neg hc]
        refine h.flush_iff k (fun k => ?_) fun k => ?_
        · rw [shown_text, String.toList_singleton]
          exact .char c (shown_upToDigits cs .text k)
        · rw [shown_text, String.toList_singleton, singleton_append, cons_inj_right]
          exact ih .text k
      · rw [not_or, Bool.not_eq_false] at hdigit
        obtain ⟨n, q', hn, hq', hreading⟩ := h.digit hdigit.1 hdigit.2
        have hrest := ih hreading k
        rw [append_assoc, singleton_append] at hrest
        rw [hn, hq']
        exact hrest

/-! ### Texts the search cannot tell apart -/

/-- The search finds the same in both, whatever stands around them. -/
def SameScan (a b : List Char) : Prop :=
  ∀ s post k, renumber k (scanFrom s (a ++ post)) = renumber k (scanFrom s (b ++ post))

theorem SameScan.refl (a : List Char) : SameScan a a := fun _ _ _ => rfl

theorem SameScan.trans {a b c : List Char} (h : SameScan a b) (h' : SameScan b c) :
    SameScan a c := fun s post k => (h s post k).trans (h' s post k)

theorem UpToDigits.sameScan {a b : List Char} (h : UpToDigits a b) : SameScan a b := by
  intro s post k
  have hs : SameState s s := by cases s <;> constructor
  exact (h.append (.refl post)).scan hs k

/-- What the search writes for a text, and the state it leaves, do not
depend on what follows. -/
theorem scan_append (a : List Char) (s : ScanState) :
    ∃ out s', ∀ post, scanFrom s (a ++ post) = out ++ scanFrom s' post := by
  induction a generalizing s with
  | nil => exact ⟨[], s, fun _ => rfl⟩
  | cons c a ih =>
    by_cases hc : c = '$'
    · subst hc
      obtain ⟨out, s', h⟩ := ih .dollar
      refine ⟨flush s ++ out, s', fun post => ?_⟩
      rw [cons_append, scan_dollar, h, append_assoc]
    · by_cases hdigit : s = .text ∨ c.isDigit = false
      · obtain ⟨out, s', h⟩ := ih .text
        refine ⟨flush s ++ .text (String.singleton c) :: out, s', fun post => ?_⟩
        rw [cons_append, scan_plain hc hdigit, h, append_assoc, cons_append]
      · rw [not_or, Bool.not_eq_false] at hdigit
        obtain ⟨n, hn⟩ := scan_digit hdigit.1 hdigit.2
        obtain ⟨out, s', h⟩ := ih (.digits n)
        exact ⟨out, s', fun post => (hn (a ++ post)).trans (h post)⟩

theorem SameScan.append {a b x y : List Char} (h : SameScan a b) (h' : SameScan x y) :
    SameScan (a ++ x) (b ++ y) := by
  intro s post k
  obtain ⟨out, s', hout⟩ := scan_append b s
  rw [append_assoc, append_assoc, h s (x ++ post) k, hout, hout, renumber_append,
    renumber_append, h' s' post]

/-! ### Templates -/

theorem placeholder_toList (n : ℕ) :
    ("$" ++ toString n).toList = '$' :: (Nat.toDigits 10 n ++ []) := by
  rw [String.toList_append, Nat.toString_eq_repr, Nat.toList_repr, append_nil]
  rfl

theorem renumberParams_toList (sqlStr : String) (offset : ℕ) :
    (renumberParams sqlStr offset).toList = shown offset (scanFrom .text sqlStr.toList) := rfl

theorem renumberParams_sameScan (sqlStr : String) (offset : ℕ) :
    SameScan (renumberParams sqlStr offset).toList sqlStr.toList :=
  (shown_upToDigits sqlStr.toList .text offset).sameScan

mutual

theorem toFragment_params : (f : SqlNode) → f.toFragment.params = (templatePieces f).holes
  | .raw value => by
      rw [SqlNode.toFragment, templatePieces]
      rfl
  | .template literal rest => by
      rw [SqlNode.toFragment, templatePieces, sqlTag_params, nil_append, holes_text]

theorem sqlTag_params : (rest : SqlRest) → (sqlParts : String) → (allParams : List Js) →
    (sqlTag rest sqlParts allParams).params = allParams ++ (restPieces rest).holes
  | .nil, _, allParams => by
      rw [sqlTag, restPieces, holes_nil, append_nil]
  | .value v literal rest, sqlParts, allParams => by
      rw [sqlTag, sqlTag_params, restPieces, holes_hole, holes_text, append_assoc,
        singleton_append]
  | .fragment f literal rest, sqlParts, allParams => by
      rw [sqlTag, sqlTag_params, restPieces, holes_append, holes_text, toFragment_params,
        append_assoc]

end

mutual

/-- The search finds in a fragment's text what it finds in the intended
one. -/
theorem toFragment_scan : (f : SqlNode) → (o : ℕ) →
    SameScan f.toFragment.sql.toList (shown o (templatePieces f))
  | .raw value, o => by
      rw [SqlNode.toFragment, templatePieces, shown_text, shown_nil, append_nil]
      exact .refl _
  | .template literal rest, o => by
      rw [SqlNode.toFragment, templatePieces, shown_text]
      exact sqlTag_scan rest literal [] o (.refl _)

theorem sqlTag_scan : (rest : SqlRest) → (sqlParts : String) → (allParams : List Js) → (o : ℕ) →
    {written : List Char} → SameScan sqlParts.toList written →
      SameScan (sqlTag rest sqlParts allParams).sql.toList
        (written ++ shown (o + allParams.length) (restPieces rest))
  | .nil, _, _, o, _, h => by
      rw [sqlTag, restPieces, shown_nil, append_nil]
      exact h
  | .value v literal rest, sqlParts, allParams, o, written, h => by
      rw [sqlTag, restPieces, shown_hole, shown_text]
      have hplace : UpToDigits ("$" ++ toString (allParams ++ [v]).length).toList
          ('$' :: (Nat.toDigits 10 (o + allParams.length + 1) ++ [])) := by
        rw [placeholder_toList]
        exact .digits (digits_toDigits _) (digits_toDigits _) .nil
      have hrest := sqlTag_scan rest
        (sqlParts ++ ("$" ++ toString (allParams ++ [v]).length) ++ literal) (allParams ++ [v]) o
        (show SameScan _ (written ++
            ('$' :: (Nat.toDigits 10 (o + allParams.length + 1) ++ [])) ++ literal.toList) by
          rw [String.toList_append, String.toList_append]
          exact (h.append hplace.sameScan).append (.refl _))
      rw [length_append, length_singleton, ← Nat.add_assoc, append_nil,
        append_assoc, append_assoc, cons_append] at hrest
      rw [length_append, length_singleton]
      exact hrest
  | .fragment f literal rest, sqlParts, allParams, o, written, h => by
      rw [sqlTag, restPieces, shown_append, shown_text]
      have hinner := (renumberParams_sameScan f.toFragment.sql allParams.length).trans
        (toFragment_scan f (o + allParams.length))
      have hrest := sqlTag_scan rest
        (sqlParts ++ renumberParams f.toFragment.sql allParams.length ++ literal)
        (allParams ++ f.toFragment.params) o
        (show SameScan _
            (written ++ shown (o + allParams.length) (templatePieces f) ++ literal.toList) by
          rw [String.toList_append, String.toList_append]
          exact (h.append hinner).append (.refl _))
      rw [length_append, toFragment_params, ← Nat.add_assoc, append_assoc,
        append_assoc] at hrest
      rw [toFragment_params]
      exact hrest

end

/-- A nested fragment is written as intended exactly when the `$digits`
of its intended text count from the offset. -/
theorem renumberParams_toFragment (f : SqlNode) (o : ℕ) :
    UpToDigits (renumberParams f.toFragment.sql o).toList (shown o (templatePieces f)) ∧
      ((renumberParams f.toFragment.sql o).toList = shown o (templatePieces f) ↔
        CountsFrom o (dollarDigits none (shown o (templatePieces f)))) := by
  have hscan := toFragment_scan f o .text [] o
  rw [append_nil, append_nil] at hscan
  have hwritten : (renumberParams f.toFragment.sql o).toList
      = shown o (scanFrom .text (shown o (templatePieces f))) := by
    rw [renumberParams_toList]
    exact congrArg (fun t => (SqlText.render postgresDialect t).toList) hscan
  rw [hwritten]
  exact ⟨shown_upToDigits (shown o (templatePieces f)) .text o,
    shown_scan_iff (shown o (templatePieces f)) .text o⟩

/-- What the loop adds to the text is alike to the intended text, and is
it exactly when the nested fragments are in order. -/
theorem sqlTag_text : (rest : SqlRest) → (sqlParts : String) → (allParams : List Js) →
    ∃ added, (sqlTag rest sqlParts allParams).sql.toList = sqlParts.toList ++ added ∧
      UpToDigits added (shown allParams.length (restPieces rest)) ∧
      (added = shown allParams.length (restPieces rest) ↔ NestedInOrder allParams.length rest)
  | .nil, sqlParts, allParams => by
      rw [sqlTag, restPieces, NestedInOrder, shown_nil]
      exact ⟨[], (append_nil _).symm, .nil, by simp⟩
  | .value v literal rest, sqlParts, allParams => by
      obtain ⟨added, hadded, halike, hiff⟩ := sqlTag_text rest
        (sqlParts ++ ("$" ++ toString (allParams ++ [v]).length) ++ literal) (allParams ++ [v])
      rw [length_append, length_singleton] at hadded halike hiff
      rw [sqlTag, restPieces, NestedInOrder, shown_hole, shown_text, ← hiff]
      refine ⟨'$' :: (Nat.toDigits 10 (allParams.length + 1) ++ (literal.toList ++ added)),
        ?_, ?_, ?_⟩
      · rw [length_append, length_singleton, hadded, String.toList_append,
          String.toList_append, placeholder_toList, append_nil, append_assoc,
          append_assoc, cons_append]
      · exact .digits (digits_toDigits _) (digits_toDigits _) ((UpToDigits.refl _).append halike)
      · rw [cons_inj_right, append_cancel_left_eq, append_cancel_left_eq]
  | .fragment f literal rest, sqlParts, allParams => by
      obtain ⟨added, hadded, halike, hiff⟩ := sqlTag_text rest
        (sqlParts ++ renumberParams f.toFragment.sql allParams.length ++ literal)
        (allParams ++ f.toFragment.params)
      obtain ⟨hinner, hinnerIff⟩ := renumberParams_toFragment f allParams.length
      rw [length_append, toFragment_params] at halike hiff
      rw [sqlTag, restPieces, NestedInOrder, shown_append, shown_text, ← hiff]
      refine ⟨(renumberParams f.toFragment.sql allParams.length).toList ++
        (literal.toList ++ added), ?_, ?_, ?_⟩
      · rw [hadded, String.toList_append, String.toList_append, append_assoc,
          append_assoc]
      · exact hinner.append ((UpToDigits.refl _).append halike)
      · show _ ↔ CountsFrom _ (dollarDigits none (shown _ _)) ∧ _
        rw [← hinnerIff]
        constructor
        · intro heq
          obtain ⟨hf, hrest⟩ := hinner.append_inj ((UpToDigits.refl _).append halike) heq
          exact ⟨hf, append_cancel_left hrest⟩
        · rintro ⟨hf, hrest⟩
          rw [hf, hrest]

/-- A fragment has the intended text, and the values as its parameters,
exactly when its nested fragments are in order. -/
theorem toFragment_iff (t : SqlNode) :
    (t.toFragment.sql = writtenFrom 0 (templatePieces t) ∧
        t.toFragment.params = (templatePieces t).holes) ↔ InOrder t := by
  rw [and_iff_left (toFragment_params t), ← String.toList_inj]
  show t.toFragment.sql.toList = shown 0 (templatePieces t) ↔ InOrder t
  cases t with
  | raw value =>
    rw [SqlNode.toFragment, templatePieces, shown_text, shown_nil, append_nil]
    exact iff_of_true rfl trivial
  | template literal rest =>
    obtain ⟨added, hadded, -, hiff⟩ := sqlTag_text rest literal []
    rw [SqlNode.toFragment, templatePieces, shown_text, hadded, append_cancel_left_eq]
    exact hiff

/-- A price in a raw fragment is taken for a placeholder. -/
theorem price_renumbered :
    let t : SqlNode := .template "SELECT " (.fragment (.raw "'$5'") " AS price" .nil)
    t.toFragment.sql = "SELECT '$1' AS price" ∧
      writtenFrom 0 (templatePieces t) = "SELECT '$5' AS price" := by
  decide +kernel

end Vertz.Proofs
