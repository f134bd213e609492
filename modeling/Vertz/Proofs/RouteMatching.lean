import Vertz.Ui.Router.DefineRoutes

/-!
# `Vertz.Proofs.RouteMatching`: which leaf a path belongs to

A route tree stands for the list of its leaves, in definition order. A leaf
has the pattern that is concatenated from the patterns on its chain, and
its bindings for a path are those of `matchPath` for that one pattern. The
path belongs to the first leaf whose pattern matches.

The router does not concatenate. It follows the chain, parent by parent,
each with what its parent left of the path. `levels` is a chain followed in
this way. At each level it also has the names that parents among the elder
siblings bound before they were given up, since the router takes these
names out of its one map of parameters.
-/

namespace Vertz.Spec

open Vertz.Lib Vertz.Ui.Router

variable {C S : Type}

/-! ### The leaves and their patterns -/

/-- A route on a chain, with the siblings defined before it. -/
structure Turn (C S : Type) where
  elder : List (CompiledRoute C S)
  route : CompiledRoute C S

mutual

/-- The chains from the routes of a list to their leaves, in definition
order. `elder` are the siblings before the list. -/
def leaves (elder : List (CompiledRoute C S)) :
    List (CompiledRoute C S) → List (List (Turn C S))
  | [] => []
  | route :: routes => leavesOf elder route ++ leaves (elder ++ [route]) routes

def leavesOf (elder : List (CompiledRoute C S)) : CompiledRoute C S → List (List (Turn C S))
  | .mk pattern component params searchParams children =>
    let turn : Turn C S := ⟨elder, .mk pattern component params searchParams children⟩
    if children.isEmpty then [[turn]] else (leaves [] children).map (turn :: ·)

end

/-- The concatenated pattern of a chain. -/
def concatenated (chain : List (Turn C S)) : String :=
  "/" ++ joinSegments (chain.flatMap fun turn => splitSegments turn.route.pattern)

/-- What the concatenated pattern binds, if it matches. -/
def bindings (chain : List (Turn C S)) (path : String) : Option (Record String) :=
  (matchPath (concatenated chain) path).map (·.params)

/-- The first leaf whose concatenated pattern matches, with its bindings. -/
def firstMatch (routes : List (CompiledRoute C S)) (path : String) :
    Option (List (Turn C S) × Record String) :=
  (leaves [] routes).findSome? fun chain => (bindings chain path).map fun params => (chain, params)

/-- What the routes of a chain bind, an inner name shadowing an outer one. -/
def bound (params : List (Record String)) : Record String := params.foldl Record.spread .empty

/-! ### What is asked of a match -/

/-- The match is this chain, its routes bind these parameters, so does the
match, and the schema of the leaf takes them. There is no match if the leaf
has a schema that refuses them. -/
def IsMatchOf (parse : S → Record String → Option (Record Js)) (chain : List (Turn C S))
    (params : Record String) : Option (RouteMatch C S) → Prop
  | some found =>
    found.matched.map (·.route) = chain.map (·.route) ∧
      (chain.getLast?.map (·.route)) = some found.route ∧
      (bound (found.matched.map (·.params))).Same params ∧
      found.params.Same params ∧
      (found.route.params.map (parse · params)) = found.parsedParams.map some
  | none => ∃ leaf schema,
      chain.getLast? = some leaf ∧ leaf.route.params = some schema ∧ parse schema params = none

/-- The schemas do not look at the order of the names. -/
def OrderFree (parse : S → Record String → Option (Record Js)) : Prop :=
  ∀ schema (a b : Record String), a.Same b → parse schema a = parse schema b

/-- Whatever the schemas do with the parameters, the match is that of the
first leaf whose concatenated pattern matches, and there is none if there
is no such leaf. -/
structure FindsFirstLeaf (routes : List (CompiledRoute C S)) (url : String) : Prop where
  no_leaf : firstMatch routes (splitUrl url).1 = none →
    ∀ (parse : S → Record String → Option (Record Js)) (entries : String → List (String × String)),
      OrderFree parse → matchRoute parse entries routes url = none
  first_leaf : ∀ chain params, firstMatch routes (splitUrl url).1 = some (chain, params) →
    ∀ (parse : S → Record String → Option (Record Js)) (entries : String → List (String × String)),
      OrderFree parse → IsMatchOf parse chain params (matchRoute parse entries routes url)

/-! ### A chain followed level by level -/

mutual

/-- The names bound by the parents that the path leads into, in trying
the routes of a list. -/
def passed : List (CompiledRoute C S) → String → List String
  | [], _ => []
  | route :: routes, path => passedOne route path ++ passed routes path

def passedOne : CompiledRoute C S → String → List String
  | .mk pattern _ _ _ children, path =>
    if children.isEmpty then []
    else
      match matchPrefix pattern path with
      | some result => passed children result.remaining ++ result.params.keys
      | none => []

end

/-- A level of a chain: what its route binds, and the names bound by the
parents that were tried before it. -/
structure Level where
  params : Record String
  tried : List String

/-- The levels of a chain, when every parent on it matches a prefix of what
is left of the path and the leaf matches the rest. -/
def levels : List (Turn C S) → String → Option (List Level)
  | [], _ => none
  | turn :: chain, path =>
    if turn.route.children.isEmpty then
      (matchPath turn.route.pattern path).map fun result =>
        [⟨result.params, passed turn.elder path⟩]
    else
      (matchPrefix turn.route.pattern path).bind fun result =>
        (levels chain result.remaining).map fun below =>
          ⟨result.params, passed turn.elder path⟩ :: below

/-- Level by level the chain matches and binds as its concatenated pattern
does. The two differ by a `*` in the pattern of a parent, which a prefix
has to match literally, and by doubled slashes behind a parent, which are
dropped. -/
def MatchesInSteps (chain : List (Turn C S)) (path : String) : Prop :=
  Option.Rel (fun ls params => (bound (ls.map (·.params))).Same params)
    (levels chain path) (bindings chain path)

/-- No name is lost: a name that no lower level binds again is not among
those taken back at a lower level. -/
def KeepsNames : List Level → Prop
  | [] => True
  | l :: ls =>
    (∀ name ∈ l.params.keys, (∀ lower ∈ ls, name ∉ lower.params.keys) →
      ∀ lower ∈ ls, name ∉ lower.tried) ∧ KeepsNames ls

/-- Every leaf up to the first that matches does so in steps, and keeps its
names. -/
def Undisturbed (routes : List (CompiledRoute C S)) (path : String) : Prop :=
  ∀ earlier chain later, leaves [] routes = earlier ++ chain :: later →
    (∀ c ∈ earlier, bindings c path = none) →
      MatchesInSteps chain path ∧ ∀ ls, levels chain path = some ls → KeepsNames ls

end Vertz.Spec

/-!
## The first matching leaf

The search leaves one trace of a parent it gives up: the names the parent
bound are gone from the map of all parameters, also where a route further
out had bound them. `matchRouteRecursive_tried` says what the search
returns and what it leaves of any name, by induction on the tree. From
there `findsFirstLeaf_iff` compares leaves: the router finds the first
matching leaf with its bindings exactly when every leaf up to that one is
matched in steps and the chain keeps its names.
-/

namespace Vertz.Proofs

open Option
open Vertz.Lib Vertz.Ui.Router Vertz.Spec List

variable {C S : Type}

/-! ### The names of a chain -/

/-- What a chain leaves of a name that was `value` before. -/
def settledName (name : String) : List Level → Option String → Option String
  | [], value => value
  | l :: ls, value =>
    settledName name ls ((l.params.get? name).or (if name ∈ l.tried then none else value))

/-- What it would leave if no name was taken back. -/
def overlaid (name : String) (params : List (Record String)) (value : Option String) :
    Option String :=
  params.foldl (fun value r => (r.get? name).or value) value

theorem overlaid_cons (name : String) (r : Record String) (params : List (Record String))
    (value : Option String) :
    overlaid name (r :: params) value = overlaid name params ((r.get? name).or value) := rfl

theorem get?_foldl_spread (params : List (Record String)) (r : Record String) (name : String) :
    (params.foldl Record.spread r).get? name = overlaid name params (r.get? name) := by
  induction params generalizing r with
  | nil => rfl
  | cons p params ih => rw [foldl_cons, ih, Record.get?_spread]; rfl

theorem get?_bound (params : List (Record String)) (name : String) :
    (bound params).get? name = overlaid name params none :=
  get?_foldl_spread params .empty name

section

variable {name : String} {ls : List Level}

/-- A name that the levels bind is what they bind, whatever it was. -/
theorem settledName_of_mem (h : ∃ l ∈ ls, name ∈ l.params.keys) (v w : Option String) :
    settledName name ls v = settledName name ls w ∧
      overlaid name (ls.map (·.params)) v = overlaid name (ls.map (·.params)) w := by
  induction ls generalizing v w with
  | nil => simp at h
  | cons l ls ih =>
    rw [map_cons, overlaid_cons, overlaid_cons, settledName, settledName]
    by_cases hbelow : ∃ l ∈ ls, name ∈ l.params.keys
    · exact ⟨(ih hbelow _ _).1, (ih hbelow _ _).2⟩
    · have hmem : name ∈ l.params.keys := by
        obtain ⟨l', hl', hname⟩ := h
        rcases mem_cons.mp hl' with rfl | hl'
        · exact hname
        · exact absurd ⟨l', hl', hname⟩ hbelow
      obtain ⟨value, hvalue⟩ := isSome_iff_exists.mp ((Record.mem_keys_iff _).mp hmem)
      simp [hvalue]

/-- A name that they do not bind stays, unless it is taken back. -/
theorem settledName_of_not_mem (h : ∀ l ∈ ls, name ∉ l.params.keys) (value : Option String) :
    settledName name ls value = (if ∃ l ∈ ls, name ∈ l.tried then none else value) ∧
      overlaid name (ls.map (·.params)) value = value := by
  induction ls generalizing value with
  | nil => simp [settledName, overlaid]
  | cons l ls ih =>
    have hl : l.params.get? name = none := by
      have hmem := h l mem_cons_self
      rwa [Record.mem_keys_iff, not_isSome_iff_eq_none] at hmem
    have hls := ih fun l' hl' => h l' (mem_cons_of_mem l hl')
    refine ⟨?_, ?_⟩
    · rw [settledName, (hls _).1, hl]
      by_cases htried : name ∈ l.tried <;> simp [htried]
    · rw [map_cons, overlaid_cons, (hls _).2, hl, none_or]

end

/-- Nothing is taken back for good exactly when the names are kept. -/
theorem keepsNames_iff (ls : List Level) :
    KeepsNames ls ↔
      ∀ name, settledName name ls none = (bound (ls.map (·.params))).get? name := by
  simp only [get?_bound]
  induction ls with
  | nil => simp [KeepsNames, settledName, overlaid]
  | cons l ls ih =>
    rw [KeepsNames, ih, ← forall_and]
    refine forall_congr' fun name => ?_
    have hstep : settledName name (l :: ls) none = settledName name ls (l.params.get? name) := by
      show settledName name ls _ = _
      rw [ite_self, or_none]
    have hover : overlaid name ((l :: ls).map (·.params)) none =
        overlaid name (ls.map (·.params)) (l.params.get? name) := by
      rw [map_cons, overlaid_cons, or_none]
    rw [hstep, hover]
    by_cases hbelow : ∃ l ∈ ls, name ∈ l.params.keys
    · -- bound again below: what this level binds does not matter
      have hnot : ¬ ∀ lower ∈ ls, name ∉ lower.params.keys := by
        simpa using hbelow
      rw [(settledName_of_mem hbelow (l.params.get? name) none).1,
        (settledName_of_mem hbelow (l.params.get? name) none).2]
      exact ⟨fun h => h.2, fun h => ⟨fun _ hnone => absurd hnone hnot, h⟩⟩
    · have hnot : ∀ lower ∈ ls, name ∉ lower.params.keys := by
        simpa using hbelow
      rw [(settledName_of_not_mem hnot _).1, (settledName_of_not_mem hnot _).1,
        (settledName_of_not_mem hnot _).2, (settledName_of_not_mem hnot _).2]
      cases hl : l.params.get? name with
      | none => simp [Record.mem_keys_iff, hl]
      | some v =>
        have hmem : name ∈ l.params.keys := by
          rw [Record.mem_keys_iff, hl]
          rfl
        by_cases htried : ∃ lower ∈ ls, name ∈ lower.tried
        · have hsome : ¬ ∀ lower ∈ ls, name ∉ lower.tried := by simpa using htried
          rw [if_pos htried, if_pos htried]
          exact ⟨fun h => absurd (h.1 hmem hnot) hsome, fun h => by cases h⟩
        · have hnone : ∀ lower ∈ ls, name ∉ lower.tried := by simpa using htried
          rw [if_neg htried, if_neg htried]
          exact ⟨fun _ => rfl, fun _ => ⟨fun _ _ => hnone, rfl⟩⟩

/-! ### The search -/

/-- The first chain that matches level by level. -/
def firstInSteps (chains : List (List (Turn C S))) (path : String) :
    Option (List (Turn C S) × List Level) :=
  chains.findSome? fun chain => (levels chain path).map fun ls => (chain, ls)

/-- What comes of trying the routes whose chains are `chains` from the state
`s`, where `before` was in the map before any sibling was tried. -/
def TriedAll (chains : List (List (Turn C S))) (path : String)
    (before : String → Option String) (tried : List String) (s : Matching C S)
    (result : Option (CompiledRoute C S) × Matching C S) : Prop :=
  match firstInSteps chains path with
  | none =>
    result.1 = none ∧ result.2.matched = s.matched ∧
      ∀ name, result.2.allParams.get? name = if name ∈ tried then none else before name
  | some (chain, ls) =>
    result.1 = chain.getLast?.map (·.route) ∧ result.1.isSome ∧
      result.2.matched.map (·.route) = s.matched.map (·.route) ++ chain.map (·.route) ∧
      result.2.matched.map (·.params) = s.matched.map (·.params) ++ ls.map (·.params) ∧
      ∀ name, result.2.allParams.get? name = settledName name ls (before name)

theorem passed_append (routes routes' : List (CompiledRoute C S)) (path : String) :
    passed (routes ++ routes') path = passed routes path ++ passed routes' path := by
  induction routes with
  | nil => rfl
  | cons route routes ih => rw [cons_append, passed, passed, ih, append_assoc]

section Route

variable {route : CompiledRoute C S} {path : String}

theorem firstInSteps_leaf (hroute : route.children.isEmpty = true)
    (elder : List (CompiledRoute C S)) :
    firstInSteps (leavesOf elder route) path =
      (matchPath route.pattern path).map fun result =>
        ([⟨elder, route⟩], [⟨result.params, passed elder path⟩]) := by
  obtain ⟨pattern, component, params, searchParams, children⟩ := route
  rw [leavesOf, if_pos (show children.isEmpty = true from hroute), firstInSteps,
    findSome?_singleton, levels, if_pos hroute, Option.map_map]
  rfl

theorem firstInSteps_parent (hroute : route.children.isEmpty = false)
    (elder : List (CompiledRoute C S)) :
    firstInSteps (leavesOf elder route) path =
      (matchPrefix route.pattern path).bind fun result =>
        (firstInSteps (leaves [] route.children) result.remaining).map fun found =>
          (⟨elder, route⟩ :: found.1, ⟨result.params, passed elder path⟩ :: found.2) := by
  obtain ⟨pattern, component, params, searchParams, children⟩ := route
  have hnot : ¬ children.isEmpty = true := by
    rw [show children.isEmpty = false from hroute]
    exact Bool.false_ne_true
  rw [leavesOf, if_neg hnot, firstInSteps, findSome?_map]
  simp only [Function.comp_def, levels, hroute, if_neg Bool.false_ne_true]
  cases hprefix :
      matchPrefix (CompiledRoute.mk pattern component params searchParams children).pattern path with
  | none => simp
  | some result =>
    rw [bind_some, firstInSteps, map_findSome?]
    refine congrArg (List.findSome? · (leaves [] children)) (funext fun chain => ?_)
    rw [Option.bind_some, Option.map_map, Function.comp_apply, Option.map_map]
    rfl

theorem passed_leaf (hroute : route.children.isEmpty = true) (elder : List (CompiledRoute C S)) :
    passed (elder ++ [route]) path = passed elder path := by
  obtain ⟨pattern, component, params, searchParams, children⟩ := route
  rw [passed_append, passed, passedOne, if_pos (show children.isEmpty = true from hroute)]
  simp [passed]

theorem passed_parent (hroute : route.children.isEmpty = false)
    (elder : List (CompiledRoute C S)) :
    passed (elder ++ [route]) path =
      passed elder path ++
        match matchPrefix route.pattern path with
        | some result => passed route.children result.remaining ++ result.params.keys
        | none => [] := by
  obtain ⟨pattern, component, params, searchParams, children⟩ := route
  have hnot : ¬ children.isEmpty = true := by
    rw [show children.isEmpty = false from hroute]
    exact Bool.false_ne_true
  rw [passed_append, passed, passedOne, if_neg hnot, passed, append_nil]
  rfl

theorem matchOne_leaf (hroute : route.children.isEmpty = true) (s : Matching C S) :
    matchOne route path s =
      match matchPath route.pattern path with
      | some result => (some route, s.enter ⟨route, result.params⟩)
      | none => (none, s) := by
  obtain ⟨pattern, component, params, searchParams, children⟩ := route
  rw [matchOne, if_pos (show children.isEmpty = true from hroute)]
  rfl

theorem matchOne_parent (hroute : route.children.isEmpty = false) (s : Matching C S) :
    matchOne route path s =
      match matchPrefix route.pattern path with
      | some result =>
        match matchRouteRecursive route.children result.remaining
            (s.enter ⟨route, result.params⟩) with
        | (some leaf, s) => (some leaf, s)
        | (none, s) => (none, s.leave result.params)
      | none => (none, s) := by
  obtain ⟨pattern, component, params, searchParams, children⟩ := route
  have hnot : ¬ children.isEmpty = true := by
    rw [show children.isEmpty = false from hroute]
    exact Bool.false_ne_true
  rw [matchOne, if_neg hnot]
  rfl

end Route

variable {path : String}

/-- A leaf that matches is the outcome; one that does not leaves everything
as it was. -/
theorem matchOne_leaf_tried {route : CompiledRoute C S} (hroute : route.children.isEmpty = true)
    {elder : List (CompiledRoute C S)} {before : String → Option String} {s : Matching C S}
    (hs : ∀ name, s.allParams.get? name = if name ∈ passed elder path then none else before name) :
    TriedAll (leavesOf elder route) path before (passed (elder ++ [route]) path) s
      (matchOne route path s) := by
  rw [TriedAll, firstInSteps_leaf hroute, passed_leaf hroute, matchOne_leaf hroute]
  cases matchPath route.pattern path with
  | none => exact ⟨rfl, rfl, hs⟩
  | some result =>
    refine ⟨rfl, rfl, by simp [Matching.enter], by simp [Matching.enter], fun name => ?_⟩
    show (s.allParams.spread result.params).get? name = settledName name [_] (before name)
    rw [Record.get?_spread, hs]
    rfl

/-- A parent has the outcome of its children, and is taken back if they
have none. -/
theorem matchOne_parent_tried {route : CompiledRoute C S} (hroute : route.children.isEmpty = false)
    {elder : List (CompiledRoute C S)} {before : String → Option String} {s : Matching C S}
    (hs : ∀ name, s.allParams.get? name = if name ∈ passed elder path then none else before name)
    (hchildren : ∀ (path : String) (before : String → Option String) (s : Matching C S),
      (∀ name, s.allParams.get? name = before name) →
        TriedAll (leaves [] route.children) path before (passed route.children path) s
          (matchRouteRecursive route.children path s)) :
    TriedAll (leavesOf elder route) path before (passed (elder ++ [route]) path) s
      (matchOne route path s) := by
  rw [TriedAll, firstInSteps_parent hroute, passed_parent hroute, matchOne_parent hroute]
  cases matchPrefix route.pattern path with
  | none =>
    rw [append_nil]
    exact ⟨rfl, rfl, hs⟩
  | some result =>
    -- the children start from the map with what the parent binds
    have hbelow := hchildren result.remaining
      (fun name => (result.params.get? name).or
        (if name ∈ passed elder path then none else before name))
      (s.enter ⟨route, result.params⟩) fun name => by
        show (s.allParams.spread result.params).get? name = _
        rw [Record.get?_spread, hs]
    rw [TriedAll] at hbelow
    rw [bind_some]
    dsimp only
    generalize matchRouteRecursive route.children result.remaining
      (s.enter ⟨route, result.params⟩) = r at hbelow ⊢
    obtain ⟨leaf, s'⟩ := r
    cases hfirst : firstInSteps (leaves [] route.children) result.remaining with
    | none =>
      rw [hfirst] at hbelow
      obtain ⟨rfl, hmatched, hparams⟩ := hbelow
      refine ⟨rfl, ?_, fun name => ?_⟩
      · show s'.matched.dropLast = s.matched
        rw [hmatched]
        exact dropLast_concat
      · show (result.params.keys.foldl Record.erase s'.allParams).get? name = _
        rw [Record.get?_foldl_erase, hparams]
        by_cases hname : name ∈ result.params.keys
        · simp [hname]
        · have hget : result.params.get? name = none := by
            rwa [Record.mem_keys_iff, not_isSome_iff_eq_none] at hname
          simp only [hname, hget, if_false, none_or, mem_append, or_false]
          by_cases hpassed : name ∈ passed elder path <;> simp [hpassed]
    | some found =>
      rw [hfirst] at hbelow
      obtain ⟨hleaf, hsome, hmatched, hbound, hparams⟩ := hbelow
      obtain ⟨route', rfl⟩ := isSome_iff_exists.mp hsome
      refine ⟨?_, rfl, ?_, ?_, hparams⟩
      · refine hleaf.trans ?_
        rw [getLast?_cons]
        cases hlast : found.1.getLast? with
        | none => simp [hlast] at hleaf
        | some last => rfl
      · rw [hmatched]
        simp [Matching.enter]
      · rw [hbound]
        simp [Matching.enter]

mutual

theorem matchRouteRecursive_tried : (routes : List (CompiledRoute C S)) →
    (elder : List (CompiledRoute C S)) → (path : String) → (before : String → Option String) →
    (s : Matching C S) →
    (∀ name, s.allParams.get? name = if name ∈ passed elder path then none else before name) →
    TriedAll (leaves elder routes) path before (passed (elder ++ routes) path) s
      (matchRouteRecursive routes path s)
  | [], elder, path, before, s, hs => by
      rw [append_nil]
      exact ⟨rfl, rfl, hs⟩
  | route :: routes, elder, path, before, s, hs => by
      have hone := matchOne_tried route elder path before s hs
      have hsplit : firstInSteps (leaves elder (route :: routes)) path =
          (firstInSteps (leavesOf elder route) path).or
            (firstInSteps (leaves (elder ++ [route]) routes) path) := by
        rw [leaves, firstInSteps, findSome?_append]
        rfl
      rw [TriedAll, hsplit, matchRouteRecursive]
      rw [TriedAll] at hone
      cases hfirst : firstInSteps (leavesOf elder route) path with
      | none =>
        rw [hfirst] at hone
        obtain ⟨hnone, hmatched, hparams⟩ := hone
        have hrest := matchRouteRecursive_tried routes (elder ++ [route]) path before
          (matchOne route path s).2 hparams
        rw [TriedAll, append_assoc, hmatched] at hrest
        have hresult : matchOne route path s = (none, (matchOne route path s).2) :=
          Prod.ext hnone rfl
        rw [hresult]
        exact hrest
      | some found =>
        rw [hfirst] at hone
        obtain ⟨leaf, hleaf⟩ := isSome_iff_exists.mp hone.2.1
        have hresult : matchOne route path s = (some leaf, (matchOne route path s).2) :=
          Prod.ext hleaf rfl
        rw [hresult] at hone ⊢
        exact hone

theorem matchOne_tried : (route : CompiledRoute C S) →
    (elder : List (CompiledRoute C S)) → (path : String) → (before : String → Option String) →
    (s : Matching C S) →
    (∀ name, s.allParams.get? name = if name ∈ passed elder path then none else before name) →
    TriedAll (leavesOf elder route) path before (passed (elder ++ [route]) path) s
      (matchOne route path s)
  | .mk pattern component params searchParams children, elder, path, before, s, hs => by
      let route : CompiledRoute C S := .mk pattern component params searchParams children
      cases hroute : route.children.isEmpty with
      | true => exact matchOne_leaf_tried hroute hs
      | false =>
        refine matchOne_parent_tried hroute hs fun path before s hs => ?_
        exact matchRouteRecursive_tried children [] path before s (by simpa [passed] using hs)

end

/-! ### The match -/

theorem tried_start (routes : List (CompiledRoute C S)) (path : String) :
    TriedAll (leaves [] routes) path (fun _ => none) (passed routes path) {}
      (matchRouteRecursive routes path {}) :=
  matchRouteRecursive_tried routes [] path (fun _ => none) {} fun _ => rfl

section

variable {routes : List (CompiledRoute C S)} {url : String}
  (parse : S → Record String → Option (Record Js)) (entries : String → List (String × String))

theorem matchRoute_of_none (h : firstInSteps (leaves [] routes) (splitUrl url).1 = none) :
    matchRoute parse entries routes url = none := by
  have houtcome := tried_start routes (splitUrl url).1
  rw [TriedAll, h] at houtcome
  rw [matchRoute]
  dsimp only
  generalize matchRouteRecursive routes (splitUrl url).1 {} = r at houtcome ⊢
  obtain ⟨leaf, s⟩ := r
  obtain ⟨rfl, -⟩ := houtcome
  rfl

theorem matchRoute_of_some {chain : List (Turn C S)} {ls : List Level}
    (h : firstInSteps (leaves [] routes) (splitUrl url).1 = some (chain, ls)) :
    ∃ (leaf : Turn C S) (s : Matching C S) (search : Record Js),
      chain.getLast? = some leaf ∧
        s.matched.map (·.route) = chain.map (·.route) ∧
        s.matched.map (·.params) = ls.map (·.params) ∧
        (∀ name, s.allParams.get? name = settledName name ls none) ∧
        matchRoute parse entries routes url =
          match leaf.route.params with
          | none => some ⟨s.allParams, none, leaf.route, s.matched, search⟩
          | some schema => (parse schema s.allParams).map fun data =>
            ⟨s.allParams, some data, leaf.route, s.matched, search⟩ := by
  have houtcome := tried_start routes (splitUrl url).1
  rw [TriedAll, h] at houtcome
  rw [matchRoute]
  dsimp only
  generalize matchRouteRecursive routes (splitUrl url).1 {} = r at houtcome ⊢
  obtain ⟨route, s⟩ := r
  obtain ⟨hleaf, hsome, hmatched, hbound, hparams⟩ := houtcome
  obtain ⟨route, rfl⟩ := isSome_iff_exists.mp hsome
  obtain ⟨leaf, hlast, hroute⟩ := map_eq_some_iff.mp hleaf.symm
  subst hroute
  exact ⟨leaf, s, parseSearch parse entries s.matched (splitUrl url).2, hlast, hmatched, hbound,
    hparams, rfl⟩

end

/-! ### Chains of the same routes -/

section

variable {chain chain' : List (Turn C S)}

theorem bindings_congr (h : chain.map (·.route) = chain'.map (·.route)) (path : String) :
    bindings chain path = bindings chain' path := by
  have hsegments : ∀ c : List (Turn C S), (c.flatMap fun turn => splitSegments turn.route.pattern) =
      (c.map (·.route)).flatMap fun route => splitSegments route.pattern := fun c => by
    rw [flatMap_map]
  rw [bindings, bindings, concatenated, concatenated, hsegments, hsegments, h]

theorem levels_isSome_congr (h : chain.map (·.route) = chain'.map (·.route)) (path : String) :
    (levels chain path).isSome = (levels chain' path).isSome := by
  induction chain generalizing chain' path with
  | nil =>
    rw [map_eq_nil_iff.mp h.symm]
  | cons turn chain ih =>
    obtain ⟨turn', chain', rfl⟩ : ∃ turn' rest, chain' = turn' :: rest := by
      cases chain' with
      | nil => simp at h
      | cons turn' rest => exact ⟨turn', rest, rfl⟩
    obtain ⟨hturn, hchain⟩ := List.cons.inj h
    rw [levels, levels, ← show turn.route = turn'.route from hturn]
    split
    · simp
    · cases matchPrefix turn.route.pattern path with
      | none => rfl
      | some result => simpa using ih hchain result.remaining

end

/-- Of two elements that a list is cut at, one is before the other, or the
cuts are one. -/
theorem cut_cases {α : Type} {xs xs' ys ys' : List α} {a a' : α}
    (h : xs ++ a :: ys = xs' ++ a' :: ys') : a ∈ xs' ∨ a' ∈ xs ∨ (xs = xs' ∧ a = a') := by
  rcases append_eq_append_iff.mp h with ⟨zs, rfl, hzs⟩ | ⟨zs, rfl, hzs⟩
  · cases zs with
    | nil => exact .inr (.inr ⟨(append_nil xs).symm, (List.cons.inj hzs).1⟩)
    | cons z zs =>
      rw [(List.cons.inj hzs).1]
      exact .inl (mem_append_right xs mem_cons_self)
  · cases zs with
    | nil => exact .inr (.inr ⟨append_nil xs', (List.cons.inj hzs).1.symm⟩)
    | cons z zs =>
      rw [(List.cons.inj hzs).1]
      exact .inr (.inl (mem_append_right xs' mem_cons_self))

/-- The first leaf that matches and the first that matches level by level
are one if they have the same routes. -/
theorem cuts_eq {xs xs' ys ys' : List (List (Turn C S))} {chain chain' : List (Turn C S)}
    {ls : List Level} {params : Record String} (h : xs ++ chain :: ys = xs' ++ chain' :: ys')
    (hroutes : chain.map (·.route) = chain'.map (·.route)) (hxs : ∀ c ∈ xs, bindings c path = none)
    (hparams : bindings chain path = some params) (hxs' : ∀ c ∈ xs', levels c path = none)
    (hls : levels chain' path = some ls) : xs = xs' ∧ chain = chain' := by
  rcases cut_cases h with hmem | hmem | heq
  · have hnone := levels_isSome_congr hroutes path
    rw [hxs' chain hmem, hls] at hnone
    exact absurd hnone (by simp)
  · have hnone := hxs chain' hmem
    rw [← bindings_congr hroutes, hparams] at hnone
    exact absurd hnone (by simp)
  · exact heq

/-! ### The first leaf -/

variable {routes : List (CompiledRoute C S)}

theorem findSome?_pair_eq_some {α β : Type} {f : α → Option β} {as : List α} {a : α} {b : β} :
    (as.findSome? fun a => (f a).map fun b => (a, b)) = some (a, b) ↔
      ∃ earlier later, as = earlier ++ a :: later ∧ f a = some b ∧ ∀ c ∈ earlier, f c = none := by
  rw [findSome?_eq_some_iff]
  constructor
  · rintro ⟨earlier, c, later, hsplit, hc, hearlier⟩
    obtain ⟨b', hb, heq⟩ := map_eq_some_iff.mp hc
    obtain ⟨rfl, rfl⟩ := Prod.mk.inj heq
    exact ⟨earlier, later, hsplit, hb, by simpa using hearlier⟩
  · rintro ⟨earlier, later, hsplit, hb, hearlier⟩
    exact ⟨earlier, a, later, hsplit, by rw [hb]; rfl, by simpa using hearlier⟩

theorem firstMatch_eq_none :
    firstMatch routes path = none ↔ ∀ chain ∈ leaves [] routes, bindings chain path = none := by
  simp [firstMatch]

variable {chain : List (Turn C S)}

theorem firstMatch_eq_some {params : Record String} :
    firstMatch routes path = some (chain, params) ↔
      ∃ earlier later, leaves [] routes = earlier ++ chain :: later ∧
        bindings chain path = some params ∧ ∀ c ∈ earlier, bindings c path = none := by
  exact findSome?_pair_eq_some

theorem firstInSteps_eq_none {chains : List (List (Turn C S))} :
    firstInSteps chains path = none ↔ ∀ chain ∈ chains, levels chain path = none := by
  simp [firstInSteps]

theorem firstInSteps_eq_some {chains : List (List (Turn C S))} {ls : List Level} :
    firstInSteps chains path = some (chain, ls) ↔
      ∃ earlier later, chains = earlier ++ chain :: later ∧
        levels chain path = some ls ∧ ∀ c ∈ earlier, levels c path = none := by
  exact findSome?_pair_eq_some

theorem levels_eq_none (h : MatchesInSteps chain path) (hnone : bindings chain path = none) :
    levels chain path = none := by
  rw [MatchesInSteps, hnone] at h
  cases hls : levels chain path with
  | none => rfl
  | some ls =>
    rw [hls] at h
    exact nomatch h

theorem levels_eq_some {params : Record String} (h : MatchesInSteps chain path)
    (hparams : bindings chain path = some params) :
    ∃ ls, levels chain path = some ls ∧ (bound (ls.map (·.params))).Same params := by
  rw [MatchesInSteps, hparams] at h
  cases hls : levels chain path with
  | none =>
    rw [hls] at h
    exact nomatch h
  | some ls =>
    rw [hls] at h
    cases h with
    | some hbound => exact ⟨ls, rfl, hbound⟩

theorem levels_before {earlier later : List (List (Turn C S))} (h : Undisturbed routes path)
    (hleaves : leaves [] routes = earlier ++ later)
    (hearlier : ∀ c ∈ earlier, bindings c path = none) : ∀ c ∈ earlier, levels c path = none := by
  intro c hc
  obtain ⟨before, between, hcut⟩ := append_of_mem hc
  have hleaves' : leaves [] routes = before ++ c :: (between ++ later) := by
    rw [hleaves, hcut, append_assoc, cons_append]
  have hbefore : ∀ c' ∈ before, bindings c' path = none := fun c' hc' =>
    hearlier c' (hcut ▸ mem_append_left _ hc')
  exact levels_eq_none (h before c _ hleaves' hbefore).1 (hearlier c hc)

theorem findsFirstLeaf_of_undisturbed {url : String} (h : Undisturbed routes (splitUrl url).1) :
    FindsFirstLeaf routes url where
  no_leaf hfirst parse entries _ := by
    have hbindings := firstMatch_eq_none.mp hfirst
    refine matchRoute_of_none parse entries (firstInSteps_eq_none.mpr fun chain hchain => ?_)
    obtain ⟨earlier, later, hleaves⟩ := append_of_mem hchain
    refine levels_eq_none (h earlier chain later hleaves fun c hc => ?_).1 (hbindings chain hchain)
    exact hbindings c (hleaves ▸ mem_append_left _ hc)
  first_leaf chain params hfirst parse entries hparse := by
    obtain ⟨earlier, later, hleaves, hparams, hearlier⟩ := firstMatch_eq_some.mp hfirst
    obtain ⟨hsteps, hkeeps⟩ := h earlier chain later hleaves hearlier
    obtain ⟨ls, hls, hbound⟩ := levels_eq_some hsteps hparams
    have hlevels := levels_before h hleaves hearlier
    have hsettled := (keepsNames_iff ls).mp (hkeeps ls hls)
    obtain ⟨leaf, s, search, hlast, hmatched, hmatchedParams, hallParams, hmatch⟩ :=
      matchRoute_of_some parse entries
        (firstInSteps_eq_some.mpr ⟨earlier, later, hleaves, hls, hlevels⟩)
    have hsame : s.allParams.Same params := fun name => by
      rw [hallParams, hsettled, hbound]
    have hlastRoute : chain.getLast?.map (·.route) = some leaf.route := by
      rw [hlast]
      rfl
    have hmatchedBound : (bound (s.matched.map (·.params))).Same params := by
      rw [hmatchedParams]
      exact hbound
    rw [hmatch]
    cases hschema : leaf.route.params with
    | none =>
      refine ⟨hmatched, hlastRoute, hmatchedBound, hsame, ?_⟩
      show leaf.route.params.map _ = _
      rw [hschema]
      rfl
    | some schema =>
      have hdata := hparse schema _ _ hsame
      dsimp only
      cases hparsed : parse schema s.allParams with
      | none => exact ⟨leaf, schema, hlast, hschema, hdata.symm.trans hparsed⟩
      | some data =>
        refine ⟨hmatched, hlastRoute, hmatchedBound, hsame, ?_⟩
        show leaf.route.params.map _ = _
        rw [hschema, map_some, ← hdata, hparsed]
        rfl

theorem undisturbed_of_findsFirstLeaf {url : String} (h : FindsFirstLeaf routes url) :
    Undisturbed routes (splitUrl url).1 := by
  intro earlier chain later hleaves hearlier
  -- schemas that take everything
  have hfree : OrderFree fun (_ : S) _ => some .empty := fun _ _ _ _ => rfl
  cases hsteps : firstInSteps (leaves [] routes) (splitUrl url).1 with
  | none =>
    have hlevels := firstInSteps_eq_none.mp hsteps chain (by simp [hleaves])
    cases hparams : bindings chain (splitUrl url).1 with
    | none => exact ⟨by rw [MatchesInSteps, hparams, hlevels]; exact .none, by simp [hlevels]⟩
    | some params =>
      -- the router would find nothing where this leaf matches
      have hfirst := firstMatch_eq_some.mpr ⟨earlier, later, hleaves, hparams, hearlier⟩
      have hmatch := h.first_leaf chain params hfirst _ (fun _ => []) hfree
      rw [matchRoute_of_none _ _ hsteps] at hmatch
      obtain ⟨leaf, schema, -, -, hrefused⟩ := hmatch
      exact nomatch hrefused
  | some found =>
    obtain ⟨chain', ls⟩ := found
    obtain ⟨earlier', later', hleaves', hls, hearlier'⟩ := firstInSteps_eq_some.mp hsteps
    obtain ⟨leaf, s, search, hlast, hmatched, hmatchedParams, hallParams, hfound⟩ :=
      matchRoute_of_some (fun _ _ => some .empty) (fun _ => []) hsteps
    cases hfirst : firstMatch routes (splitUrl url).1 with
    | none =>
      have hmatch := h.no_leaf hfirst _ (fun _ => []) hfree
      rw [hfound] at hmatch
      cases hschema : leaf.route.params <;> simp [hschema] at hmatch
    | some first =>
      obtain ⟨first, params⟩ := first
      obtain ⟨before, after, hcut, hparams, hbefore⟩ := firstMatch_eq_some.mp hfirst
      have hmatch := h.first_leaf first params hfirst _ (fun _ => []) hfree
      rw [hfound] at hmatch
      have hanswer : s.matched.map (·.route) = first.map (·.route) ∧
          (bound (s.matched.map (·.params))).Same params ∧ s.allParams.Same params := by
        cases hschema : leaf.route.params with
        | none =>
          rw [hschema] at hmatch
          exact ⟨hmatch.1, hmatch.2.2.1, hmatch.2.2.2.1⟩
        | some schema =>
          rw [hschema] at hmatch
          exact ⟨hmatch.1, hmatch.2.2.1, hmatch.2.2.2.1⟩
      obtain ⟨hroutes, hbound, hsame⟩ := hanswer
      -- the leaf that is found is the first that matches
      obtain ⟨rfl, rfl⟩ := cuts_eq (hcut.symm.trans hleaves') (hroutes.symm.trans hmatched)
        hbefore hparams hearlier' hls
      have hkeeps : KeepsNames ls := (keepsNames_iff ls).mpr fun name => by
        rw [← hallParams, hsame, ← hmatchedParams, hbound]
      rcases cut_cases (hleaves.symm.trans hcut) with hmem | hmem | ⟨-, rfl⟩
      · have hnone := hearlier' chain hmem
        exact ⟨by rw [MatchesInSteps, hbefore chain hmem, hnone]; exact .none, by simp [hnone]⟩
      · exact absurd (hearlier first hmem) (by simp [hparams])
      · refine ⟨?_, fun ls' hls' => ?_⟩
        · rw [MatchesInSteps, hparams, hls]
          exact .some (hmatchedParams ▸ hbound)
        · rw [hls] at hls'
          exact Option.some.inj hls' ▸ hkeeps

/-- A page of a user with a form and a post. The form is tried before the
post, and its parent binds the name that the user's page binds. -/
def userRoutes : List (CompiledRoute Unit Empty) :=
  let route (pattern : String) (children : List (CompiledRoute Unit Empty)) :
      CompiledRoute Unit Empty := .mk pattern () none none children
  [route "/users/:id"
    [route "/posts/:id" [route "/edit" []],
     route "/posts/:postId" []]]

theorem not_findsFirstLeaf {routes : List (CompiledRoute C Empty)} {url : String}
    (name value : String)
    (hfirst : (firstMatch routes (splitUrl url).1).map (fun m => m.2.get? name) =
      some (some value))
    (hfound : (matchRoute (fun schema => nomatch schema) (fun _ => []) routes url).map
      (fun m => m.params.get? name) = some none) : ¬ FindsFirstLeaf routes url := by
  intro h
  obtain ⟨⟨chain, params⟩, hfirst, hvalue⟩ := map_eq_some_iff.mp hfirst
  obtain ⟨found, hfound, hnone⟩ := map_eq_some_iff.mp hfound
  have hmatch := h.first_leaf chain params hfirst (fun schema => nomatch schema) (fun _ => [])
    fun schema => nomatch schema
  rw [hfound] at hmatch
  have hsame : found.params.Same params := hmatch.2.2.2.1
  cases hnone.symm.trans ((hsame name).trans hvalue)

end Vertz.Proofs
