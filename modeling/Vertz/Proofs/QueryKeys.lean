import Vertz.Ui.Query.KeySerialization
import Mathlib.Data.Rat.Encodable

/-!
# `Vertz.Proofs.QueryKeys`: when two query keys are the same

`meaning` forgets the order of an object's entries: an object is what it
has under each key, `undefined` where it has nothing. Keys are the same
when their meanings are equal.

JSON tells less apart. `jsonMeaning` is what its text keeps of a value:
`NaN`, the infinities and undefined items are `null`, and `__proto__` is
gone. A `Canonical` document lists the members of each object in one fixed
order.
-/

namespace Vertz.Spec

open Vertz.Lib.Json Vertz.Ui.Query
open Vertz.Schema (JsNumber)

inductive Meaning where
  | undefined
  | null
  | bool (b : Bool)
  | num (n : JsNumber)
  | str (s : Text)
  | arr (items : List Meaning)
  | obj (property : Text → Meaning)

mutual

def meaning : KeyValue → Meaning
  | .undefined => .undefined
  | .null => .null
  | .bool b => .bool b
  | .num n => .num n
  | .str s => .str s
  | .arr items => .arr (meaningItems items)
  | .obj entries => .obj (meaningEntries entries)
  | .unsupported _ => .undefined

def meaningItems : List KeyValue → List Meaning
  | [] => []
  | x :: xs => meaning x :: meaningItems xs

def meaningEntries : List (Text × KeyValue) → Text → Meaning
  | [], _ => .undefined
  | e :: es, key => if e.1 = key then meaning e.2 else meaningEntries es key

end

/-- Equal up to the order of object keys. -/
def SameKey : QueryKey → QueryKey → Prop
  | .string s, .string s' => s = s'
  | .tuple t, .tuple t' => meaningItems t.items = meaningItems t'.items
  | _, _ => False

/-- Two keys that are accepted and have one cache key are the same. -/
def ToldApart (number : NumberText) (a b : QueryKey) : Prop :=
  ∀ s, serializeQueryKey number a = .ok s → serializeQueryKey number b = .ok s → SameKey a b

/-! ### What JSON keeps -/

/-- An item of an array that is not there is `null`. -/
def Meaning.orNull : Meaning → Meaning
  | .undefined => .null
  | m => m

mutual

def jsonMeaning : KeyValue → Meaning
  | .undefined => .undefined
  | .null => .null
  | .bool b => .bool b
  | .num (.finite q) => .num (.finite q)
  | .num _ => .null
  | .str s => .str s
  | .arr items => .arr (jsonItems items)
  | .obj entries =>
    .obj fun key => if key = ofString "__proto__" then .undefined else jsonEntries entries key
  | .unsupported _ => .undefined

def jsonItems : List KeyValue → List Meaning
  | [] => []
  | x :: xs => (jsonMeaning x).orNull :: jsonItems xs

def jsonEntries : List (Text × KeyValue) → Text → Meaning
  | [], _ => .undefined
  | e :: es, key => if e.1 = key then jsonMeaning e.2 else jsonEntries es key

end

mutual

def docMeaning : Doc → Meaning
  | .null => .null
  | .bool b => .bool b
  | .num q => .num (.finite q)
  | .str s => .str s
  | .arr items => .arr (docItems items)
  | .obj members => .obj (docMembers members)

def docItems : List Doc → List Meaning
  | [] => []
  | x :: xs => docMeaning x :: docItems xs

def docMembers : List (Text × Doc) → Text → Meaning
  | [], _ => .undefined
  | e :: es, key => if e.1 = key then docMeaning e.2 else docMembers es key

end

/-- The order of the members: indices first, by their value, and then the
other keys by their code units. -/
def Before (key key' : Text) : Prop :=
  match indexOf? key, indexOf? key' with
  | some i, some j => i < j
  | some _, none => True
  | none, some _ => False
  | none, none => key < key'

mutual

/-- The members of every object are in order. -/
def Canonical : Doc → Prop
  | .arr items => CanonicalItems items
  | .obj members => members.Pairwise (fun e f => Before e.1 f.1) ∧ CanonicalMembers members
  | _ => True

def CanonicalItems : List Doc → Prop
  | [] => True
  | x :: xs => Canonical x ∧ CanonicalItems xs

def CanonicalMembers : List (Text × Doc) → Prop
  | [] => True
  | e :: es => Canonical e.2 ∧ CanonicalMembers es

end

/-- The string is a JSON text of the tuple, with ordered members. -/
def IsTextOf (number : NumberText) (s : Text) (items : List KeyValue) : Prop :=
  ∃ d, Canonical d ∧ docMeaning d = .arr (jsonItems items) ∧ Doc.text number d = s

/-- All values of the tuple are supported. -/
def KeyAccepted (t : TupleKey) : Prop := validateTuple t.items 0 = .ok ()

/-- A string is no JSON text of the tuple it is compared with, and tuples
that JSON reads alike are the same. -/
def Distinguishable (number : NumberText) : QueryKey → QueryKey → Prop
  | .string _, .string _ => True
  | .string s, .tuple t => KeyAccepted t → ¬ IsTextOf number s t.items
  | .tuple t, .string s => KeyAccepted t → ¬ IsTextOf number s t.items
  | .tuple t, .tuple t' =>
    KeyAccepted t → KeyAccepted t' → jsonItems t.items = jsonItems t'.items →
      meaningItems t.items = meaningItems t'.items

end Vertz.Spec

/-!
## Which query keys share a cache key

The document written for a value is canonical (`canonical_document`) and
means what JSON keeps of the value (`docMeaning_document`). Canonical
documents with one meaning are equal (`doc_ext`), and different documents
have different texts, so that two tuples share a cache key exactly when
JSON keeps the same of both.

* `toldApart_iff`: which pairs of keys are told apart.
* `nan_like_null`: the keys `[NaN]` and `[null]` are not.
-/

namespace Vertz.Proofs

open Option
open Vertz.Lib.Json Vertz.Ui.Query Vertz.Spec List

/-! ## The order of members -/

theorem indexOf_inj {key key' : Text} {n : ℕ} (h : indexOf? key = some n)
    (h' : indexOf? key' = some n) : key = key' := by
  have htext : ∀ k, indexOf? k = some n → ofString (toString n) = k := by
    intro k hk
    simp only [indexOf?] at hk
    split at hk
    case isTrue hindex => rw [← Option.some.inj hk, hindex.1]
    case isFalse => cases hk
  rw [← htext key h, htext key' h']

theorem before_irrefl (key : Text) : ¬ Before key key := by
  unfold Before
  cases indexOf? key <;> simp

theorem before_asymm {key key' : Text} (h : Before key key') : ¬ Before key' key := by
  unfold Before at h ⊢
  cases hkey : indexOf? key <;> cases hkey' : indexOf? key' <;> simp only [hkey, hkey'] at h ⊢
  · exact lt_asymm h
  · exact fun hfalse => hfalse
  · omega

theorem text_lt {a b : Text} (h : a ≤ b) (hne : a ≠ b) : a < b := by
  rcases lt_trichotomy a b with hlt | heq | hgt
  · exact hlt
  · exact absurd heq hne
  · exact absurd h (not_le_of_gt hgt)

theorem text_ne {a b : Text} (h : a < b) : a ≠ b := by
  rintro rfl
  exact lt_irrefl a h

section Entries

variable {α : Type} {entries : List (Text × α)}

theorem mem_sortObjectKeys {e : Text × α} :
    e ∈ sortObjectKeys entries ↔ e ∈ entries ∧ e.1 ≠ ofString "__proto__" := by
  simp only [sortObjectKeys, mem_append, mem_insertionSort, mem_filter,
    decide_eq_true_eq]
  cases indexOf? e.1 <;> simp

theorem nodup_insertionSort {r : Text × α → Text × α → Prop} [DecidableRel r]
    (h : (entries.map Prod.fst).Nodup) :
    (entries.insertionSort r).Pairwise fun e f => e.1 ≠ f.1 := by
  rw [← pairwise_map]
  exact ((perm_insertionSort r entries).map Prod.fst).nodup_iff.mpr h

theorem pairwise_indices (h : (entries.map Prod.fst).Nodup)
    (hindex : ∀ e ∈ entries, (indexOf? e.1).isSome) :
    (entries.insertionSort fun e f => (indexOf? e.1).getD 0 ≤ (indexOf? f.1).getD 0).Pairwise
      fun e f => Before e.1 f.1 := by
  have hle : (entries.insertionSort fun e f =>
      (indexOf? e.1).getD 0 ≤ (indexOf? f.1).getD 0).Pairwise
      fun e f => (indexOf? e.1).getD 0 ≤ (indexOf? f.1).getD 0 :=
    pairwise_insertionSort _ _
  refine (hle.and (nodup_insertionSort h)).imp_of_mem ?_
  rintro e f he hf ⟨hij, hne⟩
  rw [mem_insertionSort] at he hf
  obtain ⟨i, hi⟩ := isSome_iff_exists.mp (hindex e he)
  obtain ⟨j, hj⟩ := isSome_iff_exists.mp (hindex f hf)
  simp only [hi, hj, getD_some] at hij
  have hneq : i ≠ j := by
    rintro rfl
    exact hne (indexOf_inj hi hj)
  simp only [Before, hi, hj]
  omega

/-- Indices before the other keys. -/
theorem pairwise_split (h : entries.Pairwise fun e f => e.1 < f.1) :
    ((entries.filter fun e => (indexOf? e.1).isSome).insertionSort
        (fun e f => (indexOf? e.1).getD 0 ≤ (indexOf? f.1).getD 0) ++
      entries.filter fun e => (indexOf? e.1).isNone).Pairwise fun e f => Before e.1 f.1 := by
  rw [pairwise_append]
  refine ⟨?indices, ?others, ?between⟩
  case indices =>
    refine pairwise_indices ?_ fun e he => (mem_filter.mp he).2
    exact pairwise_map.mpr ((h.filter _).imp text_ne)
  case others =>
    have hlt := h.filter fun e => (indexOf? e.1).isNone
    refine List.Pairwise.imp_of_mem (fun {e f} he hf hef => ?_) hlt
    have hi := isNone_iff_eq_none.mp (mem_filter.mp he).2
    have hj := isNone_iff_eq_none.mp (mem_filter.mp hf).2
    unfold Before
    rw [hi, hj]
    exact hef
  case between =>
    intro e he f hf
    rw [mem_insertionSort] at he
    obtain ⟨i, hi⟩ := isSome_iff_exists.mp (mem_filter.mp he).2
    have hj := isNone_iff_eq_none.mp (mem_filter.mp hf).2
    simp only [Before, hi, hj]

theorem pairwise_sortObjectKeys (h : (entries.map Prod.fst).Nodup) :
    (sortObjectKeys entries).Pairwise fun e f => Before e.1 f.1 := by
  have hle : (entries.insertionSort fun e f => e.1 ≤ f.1).Pairwise fun e f => e.1 ≤ f.1 :=
    pairwise_insertionSort _ _
  refine pairwise_split (List.Pairwise.filter _ ?_)
  refine (hle.and (nodup_insertionSort h)).imp ?_
  rintro e f ⟨hef, hne⟩
  exact text_lt hef hne

end Entries

/-! ## What a document means -/

theorem docMeaning_ne_undefined (d : Doc) : docMeaning d ≠ .undefined := by
  cases d <;> simp [docMeaning]

variable {members : List (Text × Doc)}

theorem docMembers_of_notMem {key : Text} (h : key ∉ members.map Prod.fst) :
    docMembers members key = .undefined := by
  induction members with
  | nil => simp only [docMembers]
  | cons e es ih =>
    rw [map_cons, mem_cons, not_or] at h
    rw [docMembers, if_neg (Ne.symm h.1), ih h.2]

theorem docMembers_of_mem (hnodup : (members.map Prod.fst).Nodup) {e : Text × Doc} (h : e ∈ members)
    : docMembers members e.1 = docMeaning e.2 := by
  induction members with
  | nil => cases h
  | cons f es ih =>
    rw [map_cons, nodup_cons] at hnodup
    rw [docMembers]
    rcases mem_cons.mp h with rfl | hmem
    · rw [if_pos rfl]
    · have hne : f.1 ≠ e.1 := fun heq => hnodup.1 (heq ▸ mem_map_of_mem hmem)
      rw [if_neg hne, ih hnodup.2 hmem]

theorem keys_documentEntries (es : List (Text × KeyValue)) :
    (documentEntries es).map Prod.fst = es.map Prod.fst := by
  induction es with
  | nil => simp only [documentEntries, map_nil]
  | cons e es ih => simp only [documentEntries, map_cons, ih]

/-- The members an object is written with. -/
def membersOf (es : List (Text × KeyValue)) : List (Text × Doc) :=
  (sortObjectKeys (documentEntries es)).filterMap fun e => e.2.map fun d => (e.1, d)

theorem mem_membersOf {es : List (Text × KeyValue)} {key : Text} {d : Doc} :
    (key, d) ∈ membersOf es ↔
      (key, some d) ∈ documentEntries es ∧ key ≠ ofString "__proto__" := by
  rw [membersOf, mem_filterMap]
  constructor
  · rintro ⟨⟨k, o⟩, hmem, heq⟩
    obtain ⟨d', rfl, hpair⟩ := map_eq_some_iff.mp heq
    rw [Prod.mk.injEq] at hpair
    obtain ⟨rfl, rfl⟩ := hpair
    exact mem_sortObjectKeys.mp hmem
  · intro h
    exact ⟨(key, some d), mem_sortObjectKeys.mpr h, rfl⟩

theorem pairwise_membersOf {es : List (Text × KeyValue)} (h : (es.map Prod.fst).Nodup) :
    (membersOf es).Pairwise fun e f => Before e.1 f.1 := by
  rw [← keys_documentEntries es] at h
  refine (pairwise_sortObjectKeys h).filterMap _ ?_
  rintro ⟨k, o⟩ ⟨k', o'⟩ hbefore e he f hf
  obtain ⟨d, _, rfl⟩ := map_eq_some_iff.mp he
  obtain ⟨d', _, rfl⟩ := map_eq_some_iff.mp hf
  exact hbefore

theorem nodup_of_pairwise (h : members.Pairwise fun e f => Before e.1 f.1) :
    (members.map Prod.fst).Nodup := by
  refine pairwise_map.mpr (List.Pairwise.imp (fun {e f} hef heq => ?_) h)
  rw [heq] at hef
  exact before_irrefl _ hef

mutual

theorem docMeaning_document : (v : KeyValue) → v.distinct = true →
    ((document v).map docMeaning).getD .undefined = jsonMeaning v
  | .undefined, _ => by simp only [document, jsonMeaning, map_none, getD_none]
  | .null, _ => by simp only [document, jsonMeaning, docMeaning, map_some, getD_some]
  | .bool b, _ => by
      simp only [document, jsonMeaning, docMeaning, map_some, getD_some]
  | .num n, _ => by
      cases n <;>
        simp only [document, jsonMeaning, docMeaning, map_some, getD_some]
  | .str s, _ => by simp only [document, jsonMeaning, docMeaning, map_some, getD_some]
  | .arr items, h => by
      rw [KeyValue.distinct] at h
      simp only [document, jsonMeaning, docMeaning, map_some, getD_some,
        docItems_documentItems items h]
  | .obj es, h => by
      rw [KeyValue.distinct, Bool.and_eq_true_iff, decide_eq_true_eq] at h
      obtain ⟨hnodup, hdistinct⟩ := h
      simp only [document, jsonMeaning, docMeaning, map_some, getD_some]
      refine congrArg Meaning.obj (funext fun key => ?_)
      show docMembers (membersOf es) key = _
      have hentries := jsonEntries_eq es hnodup hdistinct key
      by_cases hmem : key ∈ (membersOf es).map Prod.fst
      case pos =>
        obtain ⟨⟨k, d⟩, hkd, rfl⟩ := mem_map.mp hmem
        obtain ⟨hentry, hproto⟩ := mem_membersOf.mp hkd
        rw [docMembers_of_mem (nodup_of_pairwise (pairwise_membersOf hnodup)) hkd, if_neg hproto]
        exact (hentries.1 _ hentry).symm
      case neg =>
        rw [docMembers_of_notMem hmem]
        by_cases hproto : key = ofString "__proto__"
        · rw [if_pos hproto]
        · rw [if_neg hproto]
          by_cases hkey : key ∈ es.map Prod.fst
          case neg => exact (hentries.2 hkey).symm
          case pos =>
            rw [← keys_documentEntries] at hkey
            obtain ⟨⟨k, o⟩, hentry, rfl⟩ := mem_map.mp hkey
            cases o with
            | none => exact (hentries.1 _ hentry).symm
            | some d =>
              -- the entry is written
              exact absurd (mem_map_of_mem (mem_membersOf.mpr ⟨hentry, hproto⟩)) hmem
  | .unsupported _, _ => by simp only [document, jsonMeaning, map_none, getD_none]

theorem docItems_documentItems : (items : List KeyValue) → distinctItems items = true →
    docItems (documentItems items) = jsonItems items
  | [], _ => by simp only [documentItems, docItems, jsonItems]
  | x :: xs, h => by
      rw [distinctItems, Bool.and_eq_true_iff] at h
      have hx := docMeaning_document x h.1
      rw [documentItems, docItems, jsonItems, docItems_documentItems xs h.2, ← hx]
      cases document x with
      | none => simp [Meaning.orNull, docMeaning]
      | some d =>
        have hd := docMeaning_ne_undefined d
        simp only [getD_some, map_some]
        cases hmeaning : docMeaning d <;> first | rfl | exact absurd hmeaning hd

theorem jsonEntries_eq : (es : List (Text × KeyValue)) → (es.map Prod.fst).Nodup →
    distinctEntries es = true → (key : Text) →
    (∀ o, (key, o) ∈ documentEntries es →
      jsonEntries es key = (o.map docMeaning).getD .undefined) ∧
    (key ∉ es.map Prod.fst → jsonEntries es key = .undefined)
  | [], _, _, key => by simp [documentEntries, jsonEntries]
  | e :: es, hnodup, hdistinct, key => by
      rw [map_cons, nodup_cons] at hnodup
      rw [distinctEntries, Bool.and_eq_true_iff] at hdistinct
      obtain ⟨hin, hout⟩ := jsonEntries_eq es hnodup.2 hdistinct.2 key
      rw [documentEntries, jsonEntries]
      constructor
      case left =>
        intro o hmem
        rcases mem_cons.mp hmem with heq | hmem
        · rw [Prod.mk.injEq] at heq
          rw [if_pos heq.1.symm, heq.2, docMeaning_document e.2 hdistinct.1]
        · have hkey : key ∈ es.map Prod.fst := by
            rw [← keys_documentEntries]
            exact mem_map_of_mem (f := Prod.fst) hmem
          have hne : e.1 ≠ key := by
            rintro rfl
            exact hnodup.1 hkey
          rw [if_neg hne, hin o hmem]
      case right =>
        intro hkey
        rw [map_cons, mem_cons, not_or] at hkey
        rw [if_neg (Ne.symm hkey.1), hout hkey.2]

end

/-! ## Documents are canonical -/

theorem canonicalMembers_iff : CanonicalMembers members ↔ ∀ e ∈ members, Canonical e.2 := by
  induction members with
  | nil => simp [CanonicalMembers]
  | cons e es ih => simp [CanonicalMembers, ih]

mutual

theorem canonical_document : (v : KeyValue) → v.distinct = true → (d : Doc) →
    document v = some d → Canonical d
  | .undefined, _, d, h => by simp [document] at h
  | .null, _, d, h => by
      simp only [document, Option.some.injEq] at h
      simp [← h, Canonical]
  | .bool b, _, d, h => by
      simp only [document, Option.some.injEq] at h
      simp [← h, Canonical]
  | .num n, _, d, h => by
      cases n <;> simp only [document, Option.some.injEq] at h <;> simp [← h, Canonical]
  | .str s, _, d, h => by
      simp only [document, Option.some.injEq] at h
      simp [← h, Canonical]
  | .arr items, hdistinct, d, h => by
      rw [KeyValue.distinct] at hdistinct
      simp only [document, Option.some.injEq] at h
      rw [← h, Canonical]
      exact canonical_documentItems items hdistinct
  | .obj es, hdistinct, d, h => by
      rw [KeyValue.distinct, Bool.and_eq_true_iff, decide_eq_true_eq] at hdistinct
      simp only [document, Option.some.injEq] at h
      rw [← h, Canonical]
      refine ⟨pairwise_membersOf hdistinct.1, canonicalMembers_iff.mpr ?_⟩
      rintro ⟨k, d'⟩ hmem
      exact canonical_documentEntries es hdistinct.2 k d' (mem_membersOf.mp hmem).1
  | .unsupported _, _, d, h => by simp [document] at h

theorem canonical_documentItems : (items : List KeyValue) → distinctItems items = true →
    CanonicalItems (documentItems items)
  | [], _ => by simp only [documentItems, CanonicalItems]
  | x :: xs, h => by
      rw [distinctItems, Bool.and_eq_true_iff] at h
      rw [documentItems, CanonicalItems]
      refine ⟨?_, canonical_documentItems xs h.2⟩
      cases hx : document x with
      | none => simp [Canonical]
      | some d => exact canonical_document x h.1 d hx

theorem canonical_documentEntries : (es : List (Text × KeyValue)) → distinctEntries es = true →
    (key : Text) → (d : Doc) → (key, some d) ∈ documentEntries es → Canonical d
  | [], _, key, d, h => by simp [documentEntries] at h
  | e :: es, hdistinct, key, d, h => by
      rw [distinctEntries, Bool.and_eq_true_iff] at hdistinct
      rw [documentEntries] at h
      rcases mem_cons.mp h with heq | hmem
      · rw [Prod.mk.injEq] at heq
        exact canonical_document e.2 hdistinct.1 d heq.2.symm
      · exact canonical_documentEntries es hdistinct.2 key d hmem

end

mutual

/-- Canonical documents with one meaning are equal. -/
theorem doc_ext : (d d' : Doc) → Canonical d → Canonical d' → docMeaning d = docMeaning d' →
    d = d'
  | .null, d', _, _, h => by cases d' <;> simp_all [docMeaning]
  | .bool b, d', _, _, h => by cases d' <;> simp_all [docMeaning]
  | .num q, d', _, _, h => by cases d' <;> simp_all [docMeaning]
  | .str s, d', _, _, h => by cases d' <;> simp_all [docMeaning]
  | .arr items, d', hd, hd', h => by
      cases d' with
      | arr items' =>
        simp only [docMeaning, Meaning.arr.injEq] at h
        rw [Canonical] at hd hd'
        rw [docItems_ext items items' hd hd' h]
      | _ => simp [docMeaning] at h
  | .obj members, d', hd, hd', h => by
      cases d' with
      | obj members' =>
        simp only [docMeaning, Meaning.obj.injEq] at h
        rw [Canonical] at hd hd'
        rw [docMembers_ext members members' hd.1 hd'.1 hd.2 hd'.2 h]
      | _ => simp [docMeaning] at h

theorem docItems_ext : (items items' : List Doc) → CanonicalItems items →
    CanonicalItems items' → docItems items = docItems items' → items = items'
  | [], [], _, _, _ => rfl
  | [], y :: ys, _, _, h => by simp [docItems] at h
  | x :: xs, [], _, _, h => by simp [docItems] at h
  | x :: xs, y :: ys, hd, hd', h => by
      simp only [docItems, List.cons.injEq] at h
      rw [CanonicalItems] at hd hd'
      rw [doc_ext x y hd.1 hd'.1 h.1, docItems_ext xs ys hd.2 hd'.2 h.2]

theorem docMembers_ext : (es es' : List (Text × Doc)) →
    es.Pairwise (fun e f => Before e.1 f.1) → es'.Pairwise (fun e f => Before e.1 f.1) →
    CanonicalMembers es → CanonicalMembers es' → docMembers es = docMembers es' → es = es'
  | [], [], _, _, _, _, _ => rfl
  | [], e' :: es', _, _, _, _, h => by
      have hkey := congrFun h e'.1
      rw [docMembers, docMembers, if_pos rfl] at hkey
      exact absurd hkey.symm (docMeaning_ne_undefined e'.2)
  | e :: es, [], _, _, _, _, h => by
      have hkey := congrFun h e.1
      rw [docMembers, docMembers, if_pos rfl] at hkey
      exact absurd hkey (docMeaning_ne_undefined e.2)
  | e :: es, e' :: es', hp, hp', hd, hd', h => by
      have hnodup := nodup_of_pairwise hp
      have hnodup' := nodup_of_pairwise hp'
      -- the first key of each list is in the other one
      have hfirst : ∀ {f : Text × Doc} {fs : List (Text × Doc)} {g : Text × Doc}
          {gs : List (Text × Doc)}, docMembers (f :: fs) = docMembers (g :: gs) →
          f.1 ≠ g.1 → ∃ g' ∈ gs, g'.1 = f.1 := by
        intro f fs g gs heq hne
        by_contra hnot
        have hkey := congrFun heq f.1
        have hout : f.1 ∉ gs.map Prod.fst := by
          intro hmem
          obtain ⟨g', hg', hg'f⟩ := mem_map.mp hmem
          exact hnot ⟨g', hg', hg'f⟩
        rw [docMembers, docMembers, if_pos rfl, if_neg (Ne.symm hne),
          docMembers_of_notMem hout] at hkey
        exact absurd hkey (docMeaning_ne_undefined f.2)
      have hkeys : e.1 = e'.1 := by
        by_contra hne
        obtain ⟨f, hf, hfe⟩ := hfirst h hne
        obtain ⟨f', hf', hfe'⟩ := hfirst h.symm (Ne.symm hne)
        have hbefore := (pairwise_cons.mp hp').1 f hf
        have hbefore' := (pairwise_cons.mp hp).1 f' hf'
        rw [hfe] at hbefore
        rw [hfe'] at hbefore'
        exact before_asymm hbefore hbefore'
      have hvalue : docMeaning e.2 = docMeaning e'.2 := by
        have hkey := congrFun h e.1
        rwa [docMembers, docMembers, if_pos rfl, if_pos hkeys.symm] at hkey
      have hrest : docMembers es = docMembers es' := by
        funext key
        by_cases hkey : e.1 = key
        · subst hkey
          rw [map_cons, nodup_cons] at hnodup hnodup'
          rw [docMembers_of_notMem hnodup.1, docMembers_of_notMem (hkeys ▸ hnodup'.1)]
        · have hboth := congrFun h key
          rwa [docMembers, docMembers, if_neg hkey, if_neg (hkeys ▸ hkey)] at hboth
      rw [CanonicalMembers] at hd hd'
      rw [Prod.ext hkeys (doc_ext e.2 e'.2 hd.1 hd'.1 hvalue),
        docMembers_ext es es' (pairwise_cons.mp hp).2 (pairwise_cons.mp hp').2 hd.2 hd'.2
          hrest]

end

/-! ## Cache keys -/

section Keys

variable {number : NumberText}

theorem serialize_tuple_iff {t : TupleKey} {s : Text} :
    serializeQueryKey number (.tuple t) = .ok s ↔
      KeyAccepted t ∧ Doc.text number (.arr (documentItems t.items)) = s := by
  rw [serializeQueryKey, KeyAccepted]
  cases validateTuple t.items 0 with
  | error message =>
    refine iff_of_false (fun h => ?_) fun h => ?_
    · cases h
    · cases h.1
  | ok u =>
    constructor
    · intro h
      exact ⟨rfl, Except.ok.inj h⟩
    · rintro ⟨_, rfl⟩
      rfl

theorem isTextOf_iff {t : TupleKey} {s : Text} :
    IsTextOf number s t.items ↔ Doc.text number (.arr (documentItems t.items)) = s := by
  have hcanonical : Canonical (.arr (documentItems t.items)) := by
    rw [Canonical]
    exact canonical_documentItems t.items t.distinct
  have hmeaning : docMeaning (.arr (documentItems t.items)) = .arr (jsonItems t.items) := by
    rw [docMeaning, docItems_documentItems t.items t.distinct]
  constructor
  · rintro ⟨d, hd, hdmeaning, rfl⟩
    rw [doc_ext d _ hd hcanonical (hdmeaning.trans hmeaning.symm)]
  · intro h
    exact ⟨_, hcanonical, hmeaning, h⟩

theorem text_eq_iff {t t' : TupleKey} :
    Doc.text number (.arr (documentItems t.items)) =
      Doc.text number (.arr (documentItems t'.items)) ↔ jsonItems t.items = jsonItems t'.items := by
  rw [(Doc.text_injective number).eq_iff, Doc.arr.injEq]
  constructor
  · intro h
    rw [← docItems_documentItems t.items t.distinct, h,
      docItems_documentItems t'.items t'.distinct]
  · intro h
    refine docItems_ext _ _ (canonical_documentItems t.items t.distinct)
      (canonical_documentItems t'.items t'.distinct) ?_
    rw [docItems_documentItems t.items t.distinct, h,
      docItems_documentItems t'.items t'.distinct]

/-- Two query keys never share a cache key without being the same exactly
when a string is no JSON text of the tuple it is compared with, and tuples
of which JSON keeps the same are the same. -/
theorem toldApart_iff (number : NumberText) (a b : QueryKey) :
    ToldApart number a b ↔ Distinguishable number a b := by
  cases a with
  | string s =>
    cases b with
    | string s' =>
      refine iff_of_true (fun r h h' => ?_) trivial
      exact (Except.ok.inj h).trans (Except.ok.inj h').symm
    | tuple t =>
      show ToldApart _ _ _ ↔ (KeyAccepted t → ¬ IsTextOf number s t.items)
      rw [isTextOf_iff]
      constructor
      · intro h haccepted htext
        exact h s rfl (serialize_tuple_iff.mpr ⟨haccepted, htext⟩)
      · intro h r hr hr'
        obtain ⟨haccepted, htext⟩ := serialize_tuple_iff.mp hr'
        exact h haccepted (htext.trans (Except.ok.inj hr).symm)
  | tuple t =>
    cases b with
    | string s =>
      show ToldApart _ _ _ ↔ (KeyAccepted t → ¬ IsTextOf number s t.items)
      rw [isTextOf_iff]
      constructor
      · intro h haccepted htext
        exact h s (serialize_tuple_iff.mpr ⟨haccepted, htext⟩) rfl
      · intro h r hr hr'
        obtain ⟨haccepted, htext⟩ := serialize_tuple_iff.mp hr
        exact h haccepted (htext.trans (Except.ok.inj hr').symm)
    | tuple t' =>
      constructor
      · intro h haccepted haccepted' hjson
        exact h _ (serialize_tuple_iff.mpr ⟨haccepted, text_eq_iff.mpr hjson⟩)
          (serialize_tuple_iff.mpr ⟨haccepted', rfl⟩)
      · intro h r hr hr'
        obtain ⟨haccepted, htext⟩ := serialize_tuple_iff.mp hr
        obtain ⟨haccepted', htext'⟩ := serialize_tuple_iff.mp hr'
        exact h haccepted haccepted' (text_eq_iff.mp (htext.trans htext'.symm))

end Keys

/-! ## Numbers that are no numbers -/

/-- Numbers written by counting. -/
def tallies : NumberText where
  text q := List.replicate (Encodable.encode q + 1) 49
  injective q q' h := by
    have hlength := congrArg List.length h
    simp only [length_replicate] at hlength
    exact Encodable.encode_injective (by omega)
  nonempty q h := by
    have hlength := congrArg List.length h
    simp at hlength
  units q c hc := by
    rw [eq_of_mem_replicate hc]
    decide

theorem nan_like_null :
    ¬ ToldApart tallies (.tuple ⟨[.num .nan], by decide⟩) (.tuple ⟨[.null], by decide⟩) := by
  intro h
  have hsame : SameKey (.tuple ⟨[.num .nan], by decide⟩) (.tuple ⟨[.null], by decide⟩) :=
    h (ofString "[null]") rfl rfl
  simp [SameKey, meaningItems, meaning] at hsame

end Vertz.Proofs
