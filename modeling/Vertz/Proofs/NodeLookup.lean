import Vertz.Proofs.Hoist

/-!
# `Vertz.Proofs.NodeLookup`: when every dependency is found
-/

namespace Vertz.Proofs

open Vertz.Lib
open Vertz.Native.Pm
open Vertz.Spec List SortedMap

section

variable {V R : Type} [LinearOrder V] {semver : Semver V R} {g : Resolved}

/-! ### The manifest -/

variable (nodeModules : Path) (patched : List String)

/-- The packages of the graph come in the order of their keys. -/
theorem entries_split {p : ResolvedPackage} {key : String}
    {pre post : List (String × ResolvedPackage)}
    (h : g.graph.packages.entries = pre ++ (key, p) :: post) :
    key = p.key ∧ InGraph g.graph p ∧
      ∀ q, InGraph g.graph q ∧ p.key < q.key ↔ (q.key, q) ∈ post := by
  have hget : g.graph.packages.get? key = some p := by
    rw [← mem_entries_iff, h]
    exact mem_append_right _ mem_cons_self
  have hkey := g.keyed key p hget
  have hsorted := g.graph.packages.sorted
  rw [h, pairwise_append, pairwise_cons] at hsorted
  refine ⟨hkey, inGraph_of_get? hget, fun q => ⟨?_, fun hmem => ?_⟩⟩
  · rintro ⟨hq, hlt⟩
    rw [InGraph, ← mem_entries_iff, h] at hq
    rcases mem_append.mp hq with hmem | hmem
    · have hbefore := hsorted.2.2 _ hmem (key, p) mem_cons_self
      rw [hkey] at hbefore
      exact absurd hlt (lt_asymm hbefore)
    · rcases mem_cons.mp hmem with heq | hmem
      · rw [(Prod.mk.inj heq).1, hkey] at hlt
        exact absurd hlt (lt_irrefl _)
      · exact hmem
  · refine ⟨?_, ?_⟩
    · rw [InGraph, ← mem_entries_iff, h]
      exact mem_append_right _ (mem_cons_of_mem _ hmem)
    · have hlt := hsorted.2.1.1 _ hmem
      rw [hkey] at hlt
      exact hlt

/-- The entry of a package at its home. -/
def entryAt (semver : Semver V R) (g : Resolved) (patched : List String) (p : ResolvedPackage)
    (nestPath : List String) : ManifestEntry :=
  manifestEntry (hoist semver g.graph) patched { p with nestPath := nestPath }

/-- The manifest holds the packages that keep their key. -/
theorem mem_buildManifest (key : String) (e : ManifestEntry) :
    (buildManifest (hoist semver g.graph) patched).packages.get? key = some e ↔
      ∃ p, Kept semver g.graph p ∧
        key = manifestKey p.name p.version (home semver g.graph p) ∧
          e = entryAt semver g patched p (home semver g.graph p) := by
  have hentries : (buildManifest (hoist semver g.graph) patched).packages =
      .ofEntries (g.graph.packages.entries.map fun e =>
        (manifestKey e.2.name e.2.version (home semver g.graph e.2),
          entryAt semver g patched e.2 (home semver g.graph e.2))) := by
    rw [buildManifest, hoist_packages, SortedMap.mapValues, map_map]
    rfl
  rw [hentries, get?_ofEntries]
  constructor
  · rintro ⟨pre, post, hsplit, hlast⟩
    obtain ⟨pre', rest, hgraph, hpre, hrest⟩ := map_eq_append_iff.mp hsplit
    obtain ⟨⟨key', p⟩, post', rfl, hp, hpost⟩ := map_eq_cons_iff.mp hrest
    cases hp
    obtain ⟨-, hp, hafter⟩ := entries_split hgraph
    refine ⟨p, ⟨hp, fun q hq hlt => ?_⟩, rfl, rfl⟩
    have hmem := (hafter q).mp ⟨hq, hlt⟩
    rw [← hpost] at hlast
    exact hlast _ (mem_map_of_mem hmem)
  · rintro ⟨p, ⟨hp, hlast⟩, rfl, rfl⟩
    obtain ⟨pre, post, hgraph⟩ :=
      append_of_mem (g.graph.packages.mem_entries_iff.mpr hp)
    obtain ⟨-, -, hafter⟩ := entries_split hgraph
    refine ⟨_, _, by rw [hgraph, map_append, map_cons], ?_⟩
    intro e he
    obtain ⟨⟨key', q⟩, hmem, rfl⟩ := mem_map.mp he
    have hget : g.graph.packages.get? key' = some q := by
      rw [← mem_entries_iff, hgraph]
      exact mem_append_right _ (mem_cons_of_mem _ hmem)
    rw [g.keyed key' q hget] at hmem
    obtain ⟨hq, hlt⟩ := (hafter q).mpr hmem
    exact hlast q hq hlt

/-! ### Directories -/

theorem targetPath_inj {nodeModules : Path} {name name' : String} {nest nest' : List String} :
    targetPath nodeModules name nest = targetPath nodeModules name' nest' ↔
      name = name' ∧ nest = nest' := by
  constructor
  · intro h
    unfold targetPath at h
    rw [append_assoc, append_assoc] at h
    have hrest := append_cancel_left h
    obtain ⟨hnest, hname⟩ := append_inj' hrest rfl
    refine ⟨singleton_injective hname, ?_⟩
    clear h hrest hname
    induction nest generalizing nest' with
    | nil =>
      cases nest' with
      | nil => rfl
      | cons parent' nest' => cases hnest
    | cons parent nest ih =>
      cases nest' with
      | nil => cases hnest
      | cons parent' nest' =>
        rw [flatMap_cons, flatMap_cons] at hnest
        obtain ⟨hhead, htail⟩ := append_inj hnest rfl
        rw [(List.cons.inj hhead).1, ih htail]
  · rintro ⟨rfl, rfl⟩
    rfl

/-- What is linked at a directory is a package whose home it is. -/
theorem linkedAt_some {name : String} {nest : List String} {e : ManifestEntry}
    (h : linkedAt nodeModules (buildManifest (hoist semver g.graph) patched) name nest =
      some e) :
    ∃ p, Kept semver g.graph p ∧ p.name = name ∧ home semver g.graph p = nest ∧
      e.version = p.version := by
  have hmem := mem_of_find?_eq_some h
  have hpath := find?_some h
  rw [decide_eq_true_eq, targetPath_inj] at hpath
  obtain ⟨⟨key, e⟩, hentry, rfl⟩ := mem_map.mp hmem
  obtain ⟨p, hp, -, rfl⟩ := (mem_buildManifest patched key e).mp (mem_entries_iff _ |>.mp hentry)
  exact ⟨p, hp, hpath.1, hpath.2, rfl⟩

theorem linkedAt_isSome {p : ResolvedPackage} (h : Kept semver g.graph p) :
    (linkedAt nodeModules (buildManifest (hoist semver g.graph) patched) p.name
      (home semver g.graph p)).isSome = true := by
  rw [linkedAt, find?_isSome]
  refine ⟨entryAt semver g patched p (home semver g.graph p), ?_,
    decide_eq_true (targetPath_inj.mpr ⟨rfl, rfl⟩)⟩
  exact mem_map.mpr ⟨(_, _),
    (mem_entries_iff _).mpr ((mem_buildManifest patched _ _).mpr ⟨p, h, rfl, rfl⟩), rfl⟩

/-! ### Lookups -/

/-- Two packages of one name have different homes. -/
def Apart (semver : Semver V R) (graph : ResolvedGraph) : Prop :=
  ∀ p q, Kept semver graph p → Kept semver graph q → p.name = q.name →
    home semver graph p = home semver graph q → p = q

theorem linkedAt_version (hapart : Apart semver g.graph) {p : ResolvedPackage}
    (h : Kept semver g.graph p) : ∃ e, linkedAt nodeModules
      (buildManifest (hoist semver g.graph) patched) p.name (home semver g.graph p) = some e ∧
        e.version = p.version := by
  obtain ⟨e, he⟩ := Option.isSome_iff_exists.mp (linkedAt_isSome nodeModules patched h)
  obtain ⟨q, hq, hname, hhome, hversion⟩ := linkedAt_some nodeModules patched he
  rw [hapart q p hq h hname hhome] at hversion
  exact ⟨e, he, hversion⟩

theorem linkedAt_eq_none {name : String} {nest : List String}
    (h : ∀ p, Kept semver g.graph p → p.name = name → home semver g.graph p ≠ nest) :
    linkedAt nodeModules (buildManifest (hoist semver g.graph) patched) name nest = none := by
  cases hlinked : linkedAt nodeModules (buildManifest (hoist semver g.graph) patched) name nest with
  | none => rfl
  | some e =>
    obtain ⟨p, hp, hname, hhome, -⟩ := linkedAt_some nodeModules patched hlinked
    exact absurd hhome (h p hp hname)

theorem nodeLookup_home (p : ResolvedPackage) (name : String) :
    nodeLookup nodeModules (buildManifest (hoist semver g.graph) patched) name
        (p.name :: (home semver g.graph p).reverse) =
      (linkedAt nodeModules (buildManifest (hoist semver g.graph) patched) name
          [(home semver g.graph p).headD p.name]).or
        (linkedAt nodeModules (buildManifest (hoist semver g.graph) patched) name []) := by
  rcases home_cases semver g.graph p with hhome | ⟨parent, hhome⟩
  · rw [hhome]
    exact Option.orElse_eq_or
  · have hdeep : linkedAt nodeModules (buildManifest (hoist semver g.graph) patched) name
        [parent, p.name] = none := by
      refine linkedAt_eq_none nodeModules patched fun q _ _ hq => ?_
      rcases home_cases semver g.graph q with h | ⟨parent', h⟩
      · rw [h] at hq
        cases hq
      · rw [h] at hq
        cases hq
    rw [hhome]
    show (linkedAt nodeModules _ name [parent, p.name]).orElse _ = _
    rw [hdeep, Option.orElse_none]
    exact Option.orElse_eq_or

theorem nodeLookup_visible (hapart : Apart semver g.graph) (outer name : String)
    (accepted : String → Prop) :
    (∃ e, (linkedAt nodeModules (buildManifest (hoist semver g.graph) patched) name [outer]).or
        (linkedAt nodeModules (buildManifest (hoist semver g.graph) patched) name []) = some e ∧
          accepted e.version) ↔
      ∃ q, Visible semver g.graph outer name q ∧ accepted q.version := by
  constructor
  · rintro ⟨e, he, haccepted⟩
    cases hinner : linkedAt nodeModules (buildManifest (hoist semver g.graph) patched) name
        [outer] with
    | some e' =>
      rw [hinner] at he
      cases he
      obtain ⟨q, hq, hname, hhome, hversion⟩ := linkedAt_some nodeModules patched hinner
      exact ⟨q, ⟨hq, hname, .inl hhome⟩, hversion ▸ haccepted⟩
    | none =>
      rw [hinner, Option.none_or] at he
      obtain ⟨q, hq, hname, hhome, hversion⟩ := linkedAt_some nodeModules patched he
      refine ⟨q, ⟨hq, hname, .inr ⟨hhome, fun q' hq' hname' hhome' => ?_⟩⟩, hversion ▸ haccepted⟩
      have hsome := linkedAt_isSome nodeModules patched hq'
      rw [hname', hhome', hinner] at hsome
      cases hsome
  · rintro ⟨q, ⟨hq, rfl, hhome | ⟨hhome, hno⟩⟩, haccepted⟩
    · obtain ⟨e, he, hversion⟩ :=
        linkedAt_version nodeModules patched hapart hq
      rw [hhome] at he
      exact ⟨e, by rw [he, Option.some_or], hversion ▸ haccepted⟩
    · obtain ⟨e, he, hversion⟩ :=
        linkedAt_version nodeModules patched hapart hq
      rw [hhome] at he
      refine ⟨e, ?_, hversion ▸ haccepted⟩
      rw [linkedAt_eq_none nodeModules patched fun q' hq' hname => hno q' hq' hname, Option.none_or, he]

theorem apart_iff : (∀ k k' e e',
      (buildManifest (hoist semver g.graph) patched).packages.get? k = some e →
      (buildManifest (hoist semver g.graph) patched).packages.get? k' = some e' →
        targetPath nodeModules e.name e.nestPath = targetPath nodeModules e'.name e'.nestPath →
          e.name = e'.name ∧ e.version = e'.version) ↔ Apart semver g.graph := by
  constructor
  · intro h p q hp hq hname hhome
    have hboth := h _ _ _ _ ((mem_buildManifest patched _ _).mpr ⟨p, hp, rfl, rfl⟩)
      ((mem_buildManifest patched _ _).mpr ⟨q, hq, rfl, rfl⟩) (targetPath_inj.mpr ⟨hname, hhome⟩)
    have hversion : p.version = q.version := hboth.2
    have hget := hp.1
    rw [InGraph, ResolvedPackage.key, hname, hversion] at hget
    exact Option.some.inj (hget.symm.trans hq.1)
  · intro h k k' e e' he he' hpath
    obtain ⟨p, hp, -, rfl⟩ := (mem_buildManifest patched k e).mp he
    obtain ⟨q, hq, -, rfl⟩ := (mem_buildManifest patched k' e').mp he'
    obtain ⟨hname, hhome⟩ := targetPath_inj.mp hpath
    rw [h p q hp hq hname hhome]
    exact ⟨rfl, rfl⟩

/-- The hoisted layout is sound exactly when the graph is `Hoistable`. -/
theorem node_resolves_iff (semver : Semver V R) (g : Resolved) (roots : SortedMap String String)
    (patched : List String) (nodeModules : Path) :
    NodeResolves semver nodeModules g.graph (buildManifest (hoist semver g.graph) patched) roots ↔
      Hoistable semver g.graph roots := by
  constructor
  · intro h
    have hapart : Apart semver g.graph := (apart_iff nodeModules patched).mp h.apart
    refine ⟨hapart, fun p hp hneeded => ?_, fun p hp dep hdep => ?_, fun name spec hroot => ?_⟩
    · obtain ⟨k, e, he, hname, hversion⟩ := h.placed p hp hneeded
      obtain ⟨q, hq, -, rfl⟩ := (mem_buildManifest patched k e).mp he
      have hget := hq.1
      rw [InGraph, ResolvedPackage.key, show q.name = p.name from hname,
        show q.version = p.version from hversion] at hget
      rw [show p = q from Option.some.inj (hp.symm.trans hget)]
      exact hq
    · have hfound := h.found _ _ p ((mem_buildManifest patched _ _).mpr ⟨p, hp, rfl, rfl⟩) hp.1 dep hdep
      simp only [entryAt, manifestEntry, nodeLookup_home] at hfound
      exact (nodeLookup_visible nodeModules patched hapart _ dep.1
        (fun v => accepts semver g.graph dep.1 dep.2 v = true)).mp hfound
    · obtain ⟨e, he, haccepted⟩ := h.rootFound name spec hroot
      obtain ⟨q, hq, hname, hhome, hversion⟩ := linkedAt_some nodeModules patched he
      exact ⟨q, hq, hname, hhome, hversion ▸ haccepted⟩
  · intro h
    have hapart : Apart semver g.graph := h.apart
    refine ⟨(apart_iff nodeModules patched).mpr hapart, fun p hp hneeded => ?_, fun k e p he hp dep hdep => ?_,
      fun name spec hroot => ?_⟩
    · exact ⟨_, _, (mem_buildManifest patched _ _).mpr ⟨p, h.kept p hp hneeded, rfl, rfl⟩, rfl, rfl⟩
    · obtain ⟨q, hq, -, rfl⟩ := (mem_buildManifest patched k e).mp he
      have hpq : p = q := Option.some.inj (hp.symm.trans hq.1)
      rw [hpq] at hdep
      have hvisible := h.found q hq dep hdep
      simp only [entryAt, manifestEntry, nodeLookup_home]
      exact (nodeLookup_visible nodeModules patched hapart _ dep.1
        (fun v => accepts semver g.graph dep.1 dep.2 v = true)).mpr hvisible
    · obtain ⟨q, hq, hname, hhome, haccepted⟩ := h.rootFound name spec hroot
      obtain ⟨e, he, hversion⟩ :=
        linkedAt_version nodeModules patched hapart hq
      rw [hname, hhome] at he
      exact ⟨e, he, hversion ▸ haccepted⟩

end

/-! ### A version with two dependents -/

/-- `a` and `b` depend on the first version of `lib`, the root on the second. -/
def twoDependents : ResolvedGraph :=
  { ResolvedGraph.empty with
    packages := .ofEntries ([barePackage "a" "1.0.0" [("lib", "^1.0.0")],
      barePackage "b" "1.0.0" [("lib", "^1.0.0")], barePackage "lib" "1.0.0" [],
      barePackage "lib" "2.0.0" []].map fun p => (p.key, p)) }

def twoDependentsRoots : SortedMap String String :=
  .ofEntries [("a", "^1.0.0"), ("b", "^1.0.0"), ("lib", "^2.0.0")]

theorem twoDependents_resolved : ∃ g : Resolved, g.graph = twoDependents := by
  have hall : ∀ e ∈ twoDependents.packages.entries, e.1 = e.2.key ∧ e.2.nestPath = [] := by decide
  exact ⟨⟨twoDependents,
    fun key p h => (hall (key, p) ((mem_entries_iff _).mpr h)).1,
    fun key p h => (hall (key, p) ((mem_entries_iff _).mpr h)).2⟩, rfl⟩

/-- Its first version is nested under `a` alone, so `b` finds the second. -/
theorem second_dependent_unserved : ∃ (g : Resolved) (roots : SortedMap String String),
    ¬ NodeResolves caretSemver ["node_modules"] g.graph
      (buildManifest (hoist caretSemver g.graph) []) roots := by
  obtain ⟨g, hg⟩ := twoDependents_resolved
  refine ⟨g, twoDependentsRoots, fun h => ?_⟩
  rw [hg] at h
  obtain ⟨e, he, haccepted⟩ := h.found "b@1.0.0" ⟨"b", "1.0.0", [], false, false⟩
    (barePackage "b" "1.0.0" [("lib", "^1.0.0")]) (by decide) (by decide) ("lib", "^1.0.0")
    (by decide)
  have hsecond : nodeLookup ["node_modules"] (buildManifest (hoist caretSemver twoDependents) [])
      "lib" ["b"] = some ⟨"lib", "2.0.0", [], false, false⟩ := by decide
  cases hsecond.symm.trans he
  exact absurd haccepted (by decide)

end Vertz.Proofs
