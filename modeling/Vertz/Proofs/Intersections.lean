import Vertz.Proofs.SchemaDrift

/-!
# `Vertz.Proofs.Intersections`: what the output of an intersection keeps

An intersection returns `{ ...left, ...right }`. The spread is shallow, so
of a key in both outputs only the right value is left, and two arrays come
out as one object. `keeps_mergeResults_iff` says when no property is lost
by that. The two sides are any functions, and so cover the schema classes
that `Schema` leaves out.
-/

namespace Vertz.Schema

open Vertz.Lib

variable {l r out side v : Js}

/-- `IntersectionSchema._parse` over what the two sides parse to. -/
def parseIntersection (left right : Input → Path → Js × List ValidationIssue) (v : Input)
    (path : Path) : Js × List ValidationIssue :=
  let (l, leftIssues) := left v []
  let (r, rightIssues) := right v []
  if !leftIssues.isEmpty || !rightIssues.isEmpty then
    (v.toJs, [⟨.invalidIntersection, "Value does not satisfy intersection", path⟩])
  else (mergeResults l r, [])

theorem parse_intersection (rt : Runtime) (left right : Schema) (v : Input) (path : Path) :
    parse rt (.intersection left right) v path =
      parseIntersection (parse rt left) (parse rt right) v path := by
  simp only [parse, parseIntersection]

/-- Every property of `side` is in `out`, at every depth, and an array is
still an array. -/
inductive Keeps : Js → Js → Prop
  | leaf {out side : Js} : isObject side = false → Keeps out side
  | arr {ys xs : List Js} : xs.length ≤ ys.length →
    (∀ (i : ℕ) x y, xs[i]? = some x → ys[i]? = some y → Keeps y x) → Keeps (.arr ys) (.arr xs)
  | obj {out side : List (String × Js)} :
    (∀ key v, Record.lookupLast key side = some v → (Record.lookupLast key out).isSome) →
    (∀ key v w, Record.lookupLast key side = some v → Record.lookupLast key out = some w →
      Keeps w v) → Keeps (.obj out) (.obj side)

/-- When a shallow spread of two outputs loses nothing: the right one has no
properties, or neither is an array and under every key of both the right
value keeps what the left one has. -/
def SpreadKeeps (l r : Js) : Prop :=
  isObject r = false ∨
    ∃ ls rs, l = .obj ls ∧ r = .obj rs ∧ ∀ key v w,
      Record.lookupLast key ls = some v → Record.lookupLast key rs = some w → Keeps w v

theorem Keeps.refl : (v : Js) → Keeps v v
  | .undefined | .null | .bool _ | .num _ | .str _ => .leaf rfl
  | .arr xs => .arr le_rfl fun i x y hx hy => by
      have := List.sizeOf_lt_of_mem (List.mem_of_getElem? hx)
      obtain rfl : x = y := Option.some.inj (hx.symm.trans hy)
      exact Keeps.refl x
  | .obj es => .obj (fun key v hv => by rw [hv]; rfl) fun key v w hv hw => by
      have := List.sizeOf_lt_of_mem (Record.mem_of_lookupLast hv)
      obtain rfl : v = w := Option.some.inj (hv.symm.trans hw)
      exact Keeps.refl v
termination_by v => sizeOf v
decreasing_by all_goals simp_all; omega

/-- Assigning entries one after another leaves the last one of each key. -/
theorem lookup_spread (key : String) (es acc : List (String × Js)) :
    Record.lookup key (es.foldl (fun acc e => Record.put e.1 e.2 acc) acc) =
      (Record.lookupLast key es).or (Record.lookup key acc) := by
  induction es generalizing acc with
  | nil => rfl
  | cons e es ih =>
    rw [List.foldl_cons, ih, Record.lookup_put, ← List.singleton_append,
      Record.lookupLast_append, Option.or_assoc]
    congr 1
    simp only [Record.lookupLast, List.reverse_singleton, Record.lookup]
    by_cases hkey : key = e.1
    · simp [hkey]
    · simp [Ne.symm hkey]

theorem lookupLast_spread (key : String) (ls rs : List (String × Js)) :
    Record.lookupLast key ((ls ++ rs).foldl (fun acc e => Record.put e.1 e.2 acc) []) =
      (Record.lookupLast key rs).or (Record.lookupLast key ls) := by
  have hnodup : ∀ (es acc : List (String × Js)), (acc.map Prod.fst).Nodup →
      ((es.foldl (fun acc e => Record.put e.1 e.2 acc) acc).map Prod.fst).Nodup := by
    intro es
    induction es with
    | nil => exact fun acc h => h
    | cons e es ih => exact fun acc h => ih _ (Record.put_nodup h)
  rw [Record.lookupLast_of_nodup (hnodup _ [] List.nodup_nil), lookup_spread,
    Record.lookupLast_append]
  simp [Record.lookup]

/-- Of two objects, the spread keeps the right one whole, and of the left
one what the right one does not replace by less. -/
theorem keeps_mergeResults_obj (ls rs : List (String × Js)) :
    Keeps (mergeResults (.obj ls) (.obj rs)) (.obj rs) ∧
      (Keeps (mergeResults (.obj ls) (.obj rs)) (.obj ls) ↔ ∀ key v w,
        Record.lookupLast key ls = some v → Record.lookupLast key rs = some w → Keeps w v) := by
  have hmerge : mergeResults (.obj ls) (.obj rs) =
      .obj ((ls ++ rs).foldl (fun acc e => Record.put e.1 e.2 acc) []) := rfl
  rw [hmerge]
  refine ⟨.obj (fun key v hv => ?_) fun key v w hv hw => ?_, ?_, ?_⟩
  · rw [lookupLast_spread, hv]
    rfl
  · rw [lookupLast_spread, hv] at hw
    obtain rfl : v = w := Option.some.inj hw
    exact Keeps.refl v
  · intro h key v w hv hw
    cases h with
    | leaf hleaf => cases hleaf
    | obj _ hkept => exact hkept key v w hv (by rw [lookupLast_spread, hw]; rfl)
  · intro h
    refine .obj (fun key v hv => ?_) fun key v u hv hu => ?_
    · rw [lookupLast_spread, hv]
      cases Record.lookupLast key rs <;> rfl
    · rw [lookupLast_spread, hv] at hu
      cases hw : Record.lookupLast key rs with
      | none =>
        rw [hw] at hu
        obtain rfl : v = u := Option.some.inj hu
        exact Keeps.refl v
      | some w =>
        rw [hw] at hu
        obtain rfl : w = u := Option.some.inj hu
        exact h key v w hv hw

theorem Keeps.isObject_out (h : Keeps out side) (hside : isObject side = true) :
    isObject out = true := by
  cases h with
  | leaf hleaf => rw [hleaf] at hside; cases hside
  | arr _ _ => rfl
  | obj _ _ => rfl

theorem arr_or_obj (h : isObject v = true) : (∃ xs, v = .arr xs) ∨ ∃ es, v = .obj es := by
  cases v <;> simp_all [isObject]

theorem not_keeps_arr {out : List (String × Js)} {xs : List Js} : ¬ Keeps (.obj out) (.arr xs) := by
  intro h
  cases h with
  | leaf hleaf => cases hleaf

theorem keeps_mergeResults_iff (l r : Js) :
    (Keeps (mergeResults l r) l ∧ Keeps (mergeResults l r) r) ↔ SpreadKeeps l r := by
  by_cases hr : isObject r = false
  · have hmerge : mergeResults l r = l := by simp [mergeResults, hr]
    rw [hmerge]
    exact ⟨fun _ => .inl hr, fun _ => ⟨Keeps.refl l, .leaf hr⟩⟩
  have hr' : isObject r = true := by simpa using hr
  by_cases hl : isObject l = true
  · -- two objects or arrays: the output is an object in any case
    have hout : ∃ es, mergeResults l r = .obj es := by simp [mergeResults, hl, hr']
    constructor
    · intro h
      obtain ⟨es, hes⟩ := hout
      rw [hes] at h
      obtain ⟨xs, rfl⟩ | ⟨ls, rfl⟩ := arr_or_obj hl
      · exact (not_keeps_arr h.1).elim
      obtain ⟨xs, rfl⟩ | ⟨rs, rfl⟩ := arr_or_obj hr'
      · exact (not_keeps_arr h.2).elim
      rw [← hes] at h
      exact .inr ⟨ls, rs, rfl, rfl, (keeps_mergeResults_obj ls rs).2.mp h.1⟩
    · rintro (h | ⟨ls, rs, rfl, rfl, h⟩)
      · exact (hr h).elim
      · exact ⟨(keeps_mergeResults_obj ls rs).2.mpr h, (keeps_mergeResults_obj ls rs).1⟩
  · have hmerge : mergeResults l r = l := by simp [mergeResults, hl]
    rw [hmerge]
    constructor
    · exact fun h => (hl (h.2.isObject_out hr')).elim
    · rintro (h | ⟨ls, rs, rfl, -, -⟩)
      · exact (hr h).elim
      · exact (hl rfl).elim

/-- Of a value that both sides accept, an intersection keeps every property
of both outputs if and only if their shallow spread does. -/
theorem intersection_keeps_iff (left right : Input → Path → Js × List ValidationIssue)
    (v : Input) (path : Path) (hleft : (left v []).2 = []) (hright : (right v []).2 = []) :
    (Keeps (parseIntersection left right v path).1 (left v []).1 ∧
      Keeps (parseIntersection left right v path).1 (right v []).1) ↔
      SpreadKeeps (left v []).1 (right v []).1 := by
  have hparse : (parseIntersection left right v path).1 =
      mergeResults (left v []).1 (right v []).1 := by
    simp [parseIntersection, hleft, hright]
  rw [hparse]
  exact keeps_mergeResults_iff _ _

def berlin : Js := .obj [("street", .str "Main St"), ("city", .str "Berlin")]

def fullAddress : Js := .obj [("address", berlin)]

/-- An object schema that declares one text under a key. -/
def oneText (key : String) : Schema := .object [(key, .string {})] .strip none

/-- Sides that share no key at the first level lose nothing. -/
theorem oneText_kept :
    Keeps (parseIntersection (parse Proofs.asciiRuntime (oneText "street"))
        (parse Proofs.asciiRuntime (oneText "city")) (.value berlin) []).1
      (.obj [("street", .str "Main St")]) := by
  have hdisjoint : ∀ key v w, Record.lookupLast key [("street", Js.str "Main St")] = some v →
      Record.lookupLast key [("city", Js.str "Berlin")] = some w → Keeps w v := by
    intro key v w hv hw
    obtain rfl : key = "street" := (Prod.mk.inj (by simpa using Record.mem_of_lookupLast hv)).1
    cases hw
  exact ((intersection_keeps_iff _ _ (.value berlin) [] rfl rfl).mpr
    (.inr ⟨_, _, rfl, rfl, hdisjoint⟩)).1

def namedAddress (key : String) : Schema := .object [("address", oneText key)] .strip none

theorem namedAddress_parse (rt : Runtime) :
    parse rt (namedAddress "street") (.value fullAddress) [] =
        (.obj [("address", .obj [("street", .str "Main St")])], []) ∧
      parse rt (namedAddress "city") (.value fullAddress) [] =
        (.obj [("address", .obj [("city", .str "Berlin")])], []) := by
  constructor <;> rfl

/-- Both sides accept, and the left one's street is gone. -/
theorem street_discarded : ¬ ∃ rt : Runtime,
    (parse rt (namedAddress "street") (.value fullAddress) []).2 ≠ [] ∨
      (parse rt (namedAddress "city") (.value fullAddress) []).2 ≠ [] ∨
      Keeps (parse rt (.intersection (namedAddress "street") (namedAddress "city"))
        (.value fullAddress) []).1
        (parse rt (namedAddress "street") (.value fullAddress) []).1 := by
  rintro ⟨rt, h⟩
  rw [parse_intersection, parseIntersection] at h
  simp only [namedAddress_parse] at h
  simp only [ne_eq, not_true_eq_false, false_or] at h
  have hkeeps := (keeps_mergeResults_obj _ _).2.mp h "address" _ _ rfl rfl
  cases hkeeps with
  | leaf hleaf => cases hleaf
  | obj hpresent _ => cases hpresent "street" (.str "Main St") rfl

end Vertz.Schema
