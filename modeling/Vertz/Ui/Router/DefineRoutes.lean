import Mathlib.Data.List.DropRight
import Vertz.Js

/-!
# `Vertz.Ui.Router.DefineRoutes`: matching a URL against a route tree

`packages/ui/src/router/matcher.ts` and `define-routes.ts`. A leaf is
matched by `matchPath`, a route with children by `matchPrefix`, which
hands the rest of the path to the children. The chain of matched routes
and the map of all parameters are threaded through the search as its
state (`Matching`); a parent that no child follows is taken back.

A route keeps its component and its schemas. What else it carries for
the loader and the renderer is not read by the matching. Absent children
and an empty list of them are treated alike, so they are one list.
-/

namespace Vertz.Ui.Router

open Vertz.Lib

/-! ### One pattern -/

/-- `path.replace(/^\/+|\/+$/g, '')`. -/
def trimSlashes (path : List Char) : List Char :=
  (path.dropWhile (· = '/')).rdropWhile (· = '/')

def splitSegments (path : String) : List String :=
  let trimmed := trimSlashes path.toList
  if trimmed = [] then [] else (trimmed.splitOn '/').map String.ofList

def splitPath (path : String) : List String := splitSegments path

/-- `segments.join('/')`. -/
def joinSegments (segments : List String) : String :=
  String.ofList (['/'].intercalate (segments.map String.toList))

/-- The segments of a path: no slash in them, and none of them empty at
either end. -/
structure Segmented (segs : List String) : Prop where
  no_slash : ∀ s ∈ segs, '/' ∉ s.toList
  head : segs.head? ≠ some ""
  last : segs.getLast? ≠ some ""

/-- The name of a parameter segment. -/
def paramName? (seg : String) : Option String :=
  match seg.toList with
  | ':' :: name => some (String.ofList name)
  | _ => none

/-- `params[name] = value`. A plain object ignores a string that is
assigned to its prototype. -/
def setParam (params : Record String) (name value : String) : Record String :=
  if name = "__proto__" then params else params.insert name value

/-- A segment other than a wildcard against a segment of the path. -/
def matchSegment (seg pathSeg : String) (params : Record String) : Option (Record String) :=
  match paramName? seg with
  | some name => if pathSeg = "" then none else some (setParam params name pathSeg)
  | none => if seg = pathSeg then some params else none

/-- The loop of `matchPath`. -/
def matchSegments : List String → List String → Record String → Option (Record String)
  | [], [], params => some params
  | [], _ :: _, _ => none
  | seg :: patternSegments, pathSegments, params =>
    if seg = "*" then some (setParam params "*" (joinSegments pathSegments))
    else
      match pathSegments with
      | [] => none
      | pathSeg :: pathSegments =>
        (matchSegment seg pathSeg params).bind (matchSegments patternSegments pathSegments)

structure MatchResult where
  params : Record String
  path : String

def matchPath (pattern path : String) : Option MatchResult :=
  (matchSegments (splitPath pattern) (splitPath path) .empty).map fun params => ⟨params, path⟩

structure PrefixMatchResult where
  params : Record String
  remaining : String

/-- The loop of `matchPrefix`. Here `*` is a segment like any other. -/
def matchPairs (pairs : List (String × String)) (params : Record String) :
    Option (Record String) :=
  pairs.foldlM (fun params pair => matchSegment pair.1 pair.2 params) params

def matchPrefix (pattern pathname : String) : Option PrefixMatchResult :=
  let patternSegments := splitSegments pattern
  let pathSegments := splitSegments pathname
  if pathSegments.length < patternSegments.length then none
  else
    (matchPairs (patternSegments.zip pathSegments) .empty).map fun params =>
      ⟨params, "/" ++ joinSegments (pathSegments.drop patternSegments.length)⟩

/-! ### The route tree -/

variable {C S : Type}

/-- A compiled route: its component is of type `C`, its schemas are of
type `S`. -/
inductive CompiledRoute (C S : Type) where
  | mk (pattern : String) (component : C) (params : Option S) (searchParams : Option S)
      (children : List (CompiledRoute C S))

namespace CompiledRoute

def pattern : CompiledRoute C S → String
  | mk pattern _ _ _ _ => pattern

def params : CompiledRoute C S → Option S
  | mk _ _ params _ _ => params

def searchParams : CompiledRoute C S → Option S
  | mk _ _ _ searchParams _ => searchParams

def children : CompiledRoute C S → List (CompiledRoute C S)
  | mk _ _ _ _ children => children

end CompiledRoute

structure MatchedRoute (C S : Type) where
  route : CompiledRoute C S
  params : Record String

/-- The state of the search. -/
structure Matching (C S : Type) where
  matched : List (MatchedRoute C S) := []
  allParams : Record String := .empty

namespace Matching

def enter (s : Matching C S) (m : MatchedRoute C S) : Matching C S :=
  { matched := s.matched ++ [m], allParams := s.allParams.spread m.params }

/-- Take the last route back, with what it has bound. -/
def leave (s : Matching C S) (params : Record String) : Matching C S :=
  { matched := s.matched.dropLast, allParams := params.keys.foldl Record.erase s.allParams }

end Matching

mutual

def matchRouteRecursive : List (CompiledRoute C S) → String → Matching C S →
    Option (CompiledRoute C S) × Matching C S
  | [], _, s => (none, s)
  | route :: routes, pathname, s =>
    match matchOne route pathname s with
    | (some leaf, s) => (some leaf, s)
    | (none, s) => matchRouteRecursive routes pathname s

/-- The body of the loop of `matchRouteRecursive`. -/
def matchOne : CompiledRoute C S → String → Matching C S →
    Option (CompiledRoute C S) × Matching C S
  | .mk pattern component params searchParams children, pathname, s =>
    let route := .mk pattern component params searchParams children
    if children.isEmpty then
      match matchPath pattern pathname with
      | some result => (some route, s.enter ⟨route, result.params⟩)
      | none => (none, s)
    else
      match matchPrefix pattern pathname with
      | some prefixResult =>
        match matchRouteRecursive children prefixResult.remaining
            (s.enter ⟨route, prefixResult.params⟩) with
        | (some leaf, s) => (some leaf, s)
        | (none, s) => (none, s.leave prefixResult.params)
      | none => (none, s)

end

structure RouteMatch (C S : Type) where
  params : Record String
  parsedParams : Option (Record Js)
  route : CompiledRoute C S
  matched : List (MatchedRoute C S)
  search : Record Js

/-- The path and the query of a URL. -/
def splitUrl (url : String) : String × String :=
  let (pathname, query) := url.toList.span (· ≠ '?')
  (String.ofList pathname, String.ofList query.tail)

section

-- `schema.parse` on a map of strings, and the entries of a query string. A
-- schema that refuses and one that throws are treated alike.
variable (parse : S → Record String → Option (Record Js))
  (entries : String → List (String × String))

/-- The search parameters: the schema nearest to the root parses them. -/
def parseSearch (matched : List (MatchedRoute C S)) (queryString : String) : Record Js :=
  match matched.findSome? (·.route.searchParams) with
  | some schema => (parse schema (.ofList (entries queryString))).getD .empty
  | none => (Record.ofList (entries queryString)).mapValues .str

def matchRoute (routes : List (CompiledRoute C S)) (url : String) : Option (RouteMatch C S) :=
  let (pathname, queryString) := splitUrl url
  match matchRouteRecursive routes pathname {} with
  | (none, _) => none
  | (some leaf, s) =>
    let found (parsedParams : Option (Record Js)) : RouteMatch C S :=
      { params := s.allParams
        parsedParams := parsedParams
        route := leaf
        matched := s.matched
        search := parseSearch parse entries s.matched queryString }
    match leaf.params with
    | none => some (found none)
    | some schema => (parse schema s.allParams).map fun data => found (some data)

end

end Vertz.Ui.Router
