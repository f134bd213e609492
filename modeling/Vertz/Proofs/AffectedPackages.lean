import Vertz.Native.Ci.Changes

/-!
# `Vertz.Proofs.AffectedPackages`: what changed files affect

The package of a file is one with the longest path that contains it
(`packageOf_correct`), and what depends on the packages of the files is
their closure under reversed dependencies (`mapFilesToPackages_correct`).
A larger change set affects more, with one exception: when root files
alone run all packages, a file of a package ends that
(`activePackages_mono_iff`).
-/

namespace Vertz.Proofs

open Vertz.Lib
open Vertz.Native.Ci List

variable {workspace : LocatedWorkspace}

/-! ### The package of a file -/

/-- The workspace has the package, or crate, at the path. -/
def HasPackage (workspace : LocatedWorkspace) (name : String) (path : Path) : Prop :=
  (∃ pkg, (name, pkg) ∈ workspace.packages.entries ∧ pkg.path = path) ∨
    (name, path) ∈ workspace.nativeCrates.entries

/-- The package has the longest path that contains the file. -/
def Owns (workspace : LocatedWorkspace) (name : String) (file : Path) : Prop :=
  ∃ path, HasPackage workspace name path ∧ path <+: file ∧
    ∀ name' path', HasPackage workspace name' path' → path' <+: file → path'.length ≤ path.length

def InNoPackage (workspace : LocatedWorkspace) (file : Path) : Prop :=
  ∀ name path, HasPackage workspace name path → ¬ path <+: file

theorem mem_packagePaths {path : Path} {name : String} :
    (path, name) ∈ packagePaths workspace ↔ HasPackage workspace name path := by
  simp only [packagePaths, mem_insertionSort, mem_append, mem_map, HasPackage,
    Prod.ext_iff]
  constructor
  · rintro (⟨⟨key, pkg⟩, hmem, rfl, rfl⟩ | ⟨⟨key, p⟩, hmem, rfl, rfl⟩)
    · exact .inl ⟨pkg, hmem, rfl⟩
    · exact .inr hmem
  · rintro (⟨pkg, hmem, rfl⟩ | hmem)
    · exact .inl ⟨(name, pkg), hmem, rfl, rfl⟩
    · exact .inr ⟨(name, path), hmem, rfl, rfl⟩

theorem packagePaths_sorted (workspace : LocatedWorkspace) : (packagePaths workspace).Pairwise
    fun a b => b.1.length ≤ a.1.length := by
  have htotal : Std.Total fun a b : Path × String => b.1.length ≤ a.1.length :=
    ⟨fun a b => Nat.le_total b.1.length a.1.length⟩
  have htrans : IsTrans (Path × String) fun a b => b.1.length ≤ a.1.length :=
    ⟨fun _ _ _ hab hbc => Nat.le_trans hbc hab⟩
  exact pairwise_insertionSort _ _

theorem packageOf_correct (workspace : LocatedWorkspace) (file : Path) :
    (∀ name, packageOf workspace file = some name → Owns workspace name file) ∧
      (packageOf workspace file = none ↔ InNoPackage workspace file) := by
  constructor
  · intro name h
    obtain ⟨⟨path, _⟩, hfind, rfl⟩ := Option.map_eq_some_iff.mp h
    obtain ⟨hpre, before, after, hsplit, hbefore⟩ := find?_eq_some_iff_append.mp hfind
    refine ⟨path, mem_packagePaths.mp (mem_of_find?_eq_some hfind),
      isPrefixOf_iff_prefix.mp hpre, fun name' path' hpkg hfile => ?_⟩
    have hsorted := packagePaths_sorted workspace
    have hmem := mem_packagePaths.mpr hpkg
    rw [hsplit] at hsorted hmem
    rcases mem_append.mp hmem with hmem | hmem
    · have hno := hbefore _ hmem
      rw [ isPrefixOf_iff_prefix.mpr hfile] at hno
      cases hno
    · rcases mem_cons.mp hmem with heq | hmem
      · cases heq
        exact Nat.le_refl _
      · exact rel_of_pairwise_cons (pairwise_append.mp hsorted).2.1 hmem
  · rw [packageOf, Option.map_eq_none_iff, find?_eq_none]
    constructor
    · intro h name path hpkg hfile
      exact h _ (mem_packagePaths.mpr hpkg) ( isPrefixOf_iff_prefix.mpr hfile)
    · rintro h ⟨path, name⟩ hmem hprefix
      exact h name path (mem_packagePaths.mp hmem) ( isPrefixOf_iff_prefix.mp hprefix)

/-! ### Dependents -/

/-- The first package has the second in its dependencies. -/
def Depends (workspace : LocatedWorkspace) (name dep : String) : Prop :=
  ∃ pkg, (name, pkg) ∈ workspace.packages.entries ∧ dep ∈ pkg.internalDeps

theorem mem_reverseDeps {name dep : String} :
    name ∈ reverseDeps workspace.packages dep ↔ Depends workspace name dep := by
  simp only [reverseDeps, mem_flatMap, mem_map, mem_filter, decide_eq_true_eq,
    Depends]
  constructor
  · rintro ⟨⟨key, pkg⟩, hmem, _, ⟨hdep, rfl⟩, rfl⟩
    exact ⟨pkg, hmem, hdep⟩
  · rintro ⟨pkg, hmem, hdep⟩
    exact ⟨(name, pkg), hmem, dep, ⟨hdep, rfl⟩, rfl⟩

theorem mem_insertName {names : List String} {name x : String} :
    x ∈ insertName names name ↔ x ∈ names ∨ x = name := by
  unfold insertName
  split
  · next hmem => exact ⟨.inl, fun h => h.elim id fun heq => heq ▸ hmem⟩
  · simp

/-- The loop has visited what the search has, and added what is new. -/
def Follows (changed : List String) (state : Propagation) (search : Frontier.Search String) : Prop :=
  state.visited = search.visited ∧ state.queue = search.queue ∧
    ∀ x, x ∈ state.transitive ↔ x ∈ search.visited ∧ x ∉ changed

variable {changed : List String} {search : Frontier.Search String}

theorem Follows.visit {state : Propagation} (h : Follows changed state search) (dep : String) :
    Follows changed (visitDependent changed state dep) (search.visit dep) := by
  obtain ⟨hvisited, hqueue, hadded⟩ := h
  unfold visitDependent Frontier.Search.visit
  rw [hvisited]
  split
  · exact ⟨hvisited, hqueue, hadded⟩
  · refine ⟨rfl, by rw [hqueue], fun x => ?_⟩
    by_cases hdep : dep ∈ changed
    · rw [if_pos hdep, hadded, mem_append, mem_singleton]
      constructor
      · exact fun ⟨hx, hnot⟩ => ⟨.inl hx, hnot⟩
      · rintro ⟨hx | rfl, hnot⟩
        · exact ⟨hx, hnot⟩
        · exact absurd hdep hnot
    · rw [if_neg hdep, mem_insertName, hadded, mem_append, mem_singleton]
      constructor
      · rintro (⟨hx, hnot⟩ | rfl)
        · exact ⟨.inl hx, hnot⟩
        · exact ⟨.inr rfl, hdep⟩
      · rintro ⟨hx | hx, hnot⟩
        · exact .inl ⟨hx, hnot⟩
        · exact .inr hx

theorem Follows.visitAll (deps : List String) {state : Propagation}
    (h : Follows changed state search) :
    Follows changed (deps.foldl (visitDependent changed) state)
      (deps.foldl Frontier.Search.visit search) := by
  induction deps generalizing state search with
  | nil => exact h
  | cons dep deps ih => exact ih (h.visit dep)

theorem Follows.mem_propagate (fuel : ℕ) {state : Propagation} (h : Follows changed state search)
    (x : String) :
    x ∈ propagate workspace.packages changed fuel state ↔
      x ∈ Frontier.explore (reverseDeps workspace.packages) fuel search ∧ x ∉ changed := by
  induction fuel generalizing state search with
  | zero => exact h.2.2 x
  | succ fuel ih =>
    rw [propagate, Frontier.explore, h.2.1]
    cases search.queue with
    | nil => exact h.2.2 x
    | cons pkg queue =>
      have hpop : Follows changed { state with queue := queue } { search with queue := queue } :=
        ⟨h.1, rfl, h.2.2⟩
      exact ih (hpop.visitAll _)

/-- What is added is what depends on the changed packages, directly or
not, and is none of them. -/
theorem mem_computeTransitiveAffected (hchanged : changed.Nodup) {name : String} :
    name ∈ computeTransitiveAffected changed workspace.packages ↔
      name ∉ changed ∧ ∃ dep ∈ changed, Relation.TransGen (Depends workspace) name dep := by
  have hspace : ∀ dep, ∀ x ∈ reverseDeps workspace.packages dep, x ∈ workspace.packages.keys := by
    intro dep x hx
    obtain ⟨pkg, hmem, _⟩ := mem_reverseDeps.mp hx
    exact mem_map.mpr ⟨_, hmem, rfl⟩
  have hstart : Follows changed ⟨[], changed, changed⟩ ⟨changed, changed⟩ :=
    ⟨rfl, rfl, fun x => by simp⟩
  have hlength : workspace.packages.keys.length = workspace.packages.entries.length :=
    length_map ..
  rw [computeTransitiveAffected, hstart.mem_propagate, ← hlength,
    Frontier.mem_explore_all hspace hchanged, and_comm]
  refine and_congr_right fun hnew => exists_congr fun dep => and_congr_right fun hdep => ?_
  have hne : dep ≠ name := fun heq => hnew (heq ▸ hdep)
  rw [Relation.reflTransGen_iff_eq_or_transGen, or_iff_right hne.symm, ← Relation.transGen_swap]
  simp only [mem_reverseDeps]

/-! ### The affected packages -/

theorem placeFiles_spec (workspace : LocatedWorkspace) (files : List Path) (found : List String × Bool)
    (hfound : found.1.Nodup) :
    (files.foldl (placeFile workspace) found).1.Nodup ∧
    (∀ name, name ∈ (files.foldl (placeFile workspace) found).1 ↔
      name ∈ found.1 ∨ ∃ file ∈ files, packageOf workspace file = some name) ∧
    ((files.foldl (placeFile workspace) found).2 = true ↔
      found.2 = true ∨ ∃ file ∈ files, packageOf workspace file = none) := by
  induction files generalizing found with
  | nil => simp [hfound]
  | cons file files ih =>
    cases hfile : packageOf workspace file with
    | none =>
      have hplace : placeFile workspace found file = (found.1, true) := by
        rw [placeFile, hfile]
      obtain ⟨hnodup, hmem, hroot⟩ := ih (found.1, true) hfound
      rw [foldl_cons, hplace]
      refine ⟨hnodup, fun name => ?_, ?_⟩
      · rw [hmem]
        simp [hfile]
      · rw [hroot]
        simp [hfile]
    | some owner =>
      have hplace : placeFile workspace found file = (insertName found.1 owner, found.2) := by
        rw [placeFile, hfile]
      have hinsert : (insertName found.1 owner).Nodup := by
        unfold insertName
        split
        · exact hfound
        · next hnew => exact nodup_append.mpr ⟨hfound, nodup_singleton _, by
            rintro a ha b hb rfl
            exact hnew (mem_singleton.mp hb ▸ ha)⟩
      obtain ⟨hnodup, hmem, hroot⟩ := ih (insertName found.1 owner, found.2) hinsert
      rw [foldl_cons, hplace]
      refine ⟨hnodup, fun name => ?_, ?_⟩
      · rw [hmem, mem_insertName, or_assoc]
        simp [hfile, eq_comm]
      · rw [hroot]
        simp [hfile]

theorem mapFiles_spec (workspace : LocatedWorkspace) (files : List Path) :
    (∀ name, name ∈ (mapFilesToPackages files workspace).directlyChanged ↔
      ∃ file ∈ files, packageOf workspace file = some name) ∧
    (∀ name, name ∈ (mapFilesToPackages files workspace).transitivelyAffected ↔
      name ∉ (mapFilesToPackages files workspace).directlyChanged ∧
        ∃ dep ∈ (mapFilesToPackages files workspace).directlyChanged,
          Relation.TransGen (Depends workspace) name dep) ∧
    ((mapFilesToPackages files workspace).rootChanged = true ↔
      ∃ file ∈ files, InNoPackage workspace file) := by
  obtain ⟨hnodup, hmem, hroot⟩ := placeFiles_spec workspace files ([], false) nodup_nil
  refine ⟨fun name => ?_, fun name => mem_computeTransitiveAffected hnodup, ?_⟩
  · exact (hmem name).trans (or_iff_right not_mem_nil)
  · refine hroot.trans ((or_iff_right Bool.false_ne_true).trans ?_)
    simp only [(packageOf_correct workspace _).2]

/-- Every file is in the package with the longest path that contains it;
the transitive set is what depends on the packages of the files without
these; and a root file is one in no package. -/
theorem mapFilesToPackages_correct (workspace : LocatedWorkspace) (files : List Path) :
    (∀ file, (∀ name, packageOf workspace file = some name → Owns workspace name file) ∧
      (packageOf workspace file = none ↔ InNoPackage workspace file)) ∧
    (∀ name, name ∈ (mapFilesToPackages files workspace).directlyChanged ↔
      ∃ file ∈ files, packageOf workspace file = some name) ∧
    (∀ name, name ∈ (mapFilesToPackages files workspace).transitivelyAffected ↔
      name ∉ (mapFilesToPackages files workspace).directlyChanged ∧
        ∃ dep ∈ (mapFilesToPackages files workspace).directlyChanged,
          Relation.TransGen (Depends workspace) name dep) ∧
    ((mapFilesToPackages files workspace).rootChanged = true ↔
      ∃ file ∈ files, InNoPackage workspace file) := by
  exact ⟨packageOf_correct workspace, mapFiles_spec workspace files⟩

/-! ### The affected filter -/

/-- The package has a changed file, or depends on one that has. -/
def Affected (workspace : LocatedWorkspace) (files : List Path) (name : String) : Prop :=
  ∃ file ∈ files, ∃ owner, packageOf workspace file = some owner ∧
    Relation.ReflTransGen (Depends workspace) name owner

/-- There are changed files, and none in a package. -/
def RootsOnly (workspace : LocatedWorkspace) (files : List Path) : Prop :=
  files ≠ [] ∧ ∀ file ∈ files, InNoPackage workspace file

theorem mem_allAffected {files : List Path} {name : String} :
    name ∈ (mapFilesToPackages files workspace).allAffected ↔ Affected workspace files name := by
  obtain ⟨hdirect, htransitive, _⟩ := mapFiles_spec workspace files
  have hall : (mapFilesToPackages files workspace).allAffected =
      (mapFilesToPackages files workspace).directlyChanged ++
        (mapFilesToPackages files workspace).transitivelyAffected := rfl
  rw [hall, mem_append, htransitive]
  constructor
  · rintro (h | ⟨_, dep, hdep, hpath⟩)
    · obtain ⟨file, hfile, howner⟩ := (hdirect name).mp h
      exact ⟨file, hfile, name, howner, .refl⟩
    · obtain ⟨file, hfile, howner⟩ := (hdirect dep).mp hdep
      exact ⟨file, hfile, dep, howner, hpath.to_reflTransGen⟩
  · rintro ⟨file, hfile, owner, howner, hpath⟩
    have hmem := (hdirect owner).mpr ⟨file, hfile, howner⟩
    rw [or_iff_not_imp_left]
    intro hnot
    rcases Relation.reflTransGen_iff_eq_or_transGen.mp hpath with rfl | hpath
    · exact absurd hmem hnot
    · exact ⟨hnot, owner, hmem, hpath⟩

theorem mem_activePackages {rootAffectsAll : Bool} {files : List Path} {name : String} :
    name ∈ activePackages workspace rootAffectsAll files ↔ Affected workspace files name ∨
      (rootAffectsAll = true ∧ RootsOnly workspace files ∧ name ∈ workspace.packages.keys) := by
  have hroots : RootsOnly workspace files →
      ∀ name, ¬ Affected workspace files name := by
    rintro ⟨_, hfiles⟩ name ⟨file, hfile, owner, howner, _⟩
    rw [((packageOf_correct workspace file).2).mpr (hfiles file hfile)] at howner
    cases howner
  obtain ⟨_, _, hroot⟩ := mapFiles_spec workspace files
  unfold activePackages affectedFilter
  dsimp only
  cases hempty : (mapFilesToPackages files workspace).allAffected.isEmpty with
  | false =>
    have hsome : ¬ RootsOnly workspace files := by
      intro h
      obtain ⟨x, hx⟩ := exists_mem_of_ne_nil _ (isEmpty_eq_false_iff.mp hempty)
      exact hroots h x (mem_allAffected.mp hx)
    simp only [Bool.false_eq_true, if_false]
    rw [mem_allAffected]
    exact (or_iff_left fun h => hsome h.2.1).symm
  | true =>
    have hnone : ∀ name, ¬ Affected workspace files name := by
      intro x hx
      rw [← mem_allAffected, isEmpty_iff.mp hempty] at hx
      cases hx
    have hfree : ∀ file ∈ files, InNoPackage workspace file := by
      intro file hfile
      refine ((packageOf_correct workspace file).2).mp ?_
      cases howner : packageOf workspace file with
      | none => rfl
      | some owner => exact absurd ⟨file, hfile, owner, howner, .refl⟩ (hnone owner)
    have hchanged : (mapFilesToPackages files workspace).rootChanged = true ↔
        RootsOnly workspace files := by
      rw [hroot]
      constructor
      · exact fun ⟨file, hfile, _⟩ => ⟨ne_nil_of_mem hfile, hfree⟩
      · intro h
        obtain ⟨file, hfile⟩ := exists_mem_of_ne_nil _ h.1
        exact ⟨file, hfile, h.2 file hfile⟩
    rw [if_pos rfl, or_iff_right (hnone name), ← hchanged, resolveRootChangedAction]
    cases (mapFilesToPackages files workspace).rootChanged <;> cases rootAffectsAll <;>
      simp [isEmpty_iff.mp hempty]

/-- More changed files affect more. -/
theorem Affected.mono {files files' : List Path} (h : files ⊆ files') {name : String}
    (haffected : Affected workspace files name) : Affected workspace files' name := by
  obtain ⟨file, hfile, hrest⟩ := haffected
  exact ⟨file, h hfile, hrest⟩

/-- A package that runs for some changed files runs for more, but when
the former are root files that run all packages, and a package among the
latter ends that. Another root file skips nothing. -/
theorem activePackages_mono_iff (workspace : LocatedWorkspace) (rootAffectsAll : Bool)
    (files : List Path) :
    (∀ files', files ⊆ files' →
      ((∀ name ∈ activePackages workspace rootAffectsAll files,
          name ∈ activePackages workspace rootAffectsAll files') ↔
        ¬ (rootAffectsAll = true ∧ RootsOnly workspace files ∧
          ¬ (∀ file ∈ files', InNoPackage workspace file) ∧
          ∃ name ∈ workspace.packages.keys, ¬ Affected workspace files' name))) ∧
    ∀ file, InNoPackage workspace file →
      ∀ name ∈ activePackages workspace rootAffectsAll files,
        name ∈ activePackages workspace rootAffectsAll (file :: files) := by
  constructor
  · intro files' hsub
    simp only [mem_activePackages]
    constructor
    · rintro h ⟨hall, hroots, hpackage, name, hname, hnot⟩
      rcases h name (.inr ⟨hall, hroots, hname⟩) with haffected | ⟨_, hroots', _⟩
      · exact hnot haffected
      · exact hpackage hroots'.2
    · rintro h name (haffected | ⟨hall, hroots, hname⟩)
      · exact .inl (haffected.mono hsub)
      · rw [or_iff_not_imp_left]
        intro hnot
        refine ⟨hall, ⟨fun hnil => hroots.1 (subset_nil.mp (hnil ▸ hsub)), ?_⟩, hname⟩
        by_contra hpackage
        exact h ⟨hall, hroots, hpackage, name, hname, hnot⟩
  · intro file hfree name
    simp only [mem_activePackages]
    rintro (haffected | ⟨hall, hroots, hname⟩)
    · exact .inl (haffected.mono (subset_cons_self file files))
    · exact .inr ⟨hall, ⟨cons_ne_nil file files,
        forall_mem_cons.mpr ⟨hfree, hroots.2⟩⟩, hname⟩

def uiAndServer : LocatedWorkspace where
  packages := .ofList [("server", ⟨["packages", "server"], []⟩), ("ui", ⟨["packages", "ui"], []⟩)]
  nativeCrates := .empty

def uiFile : Path := ["packages", "ui", "index.ts"]

/-- Of a file of the ui package and one of the server package both run. -/
theorem uiAndServer_mono : ∀ name ∈ activePackages uiAndServer true [uiFile],
    name ∈ activePackages uiAndServer true [uiFile, ["packages", "server", "index.ts"]] := by
  refine ((activePackages_mono_iff uiAndServer true [uiFile]).1 _
    (cons_subset_cons _ (nil_subset _))).mpr ?_
  rintro ⟨_, ⟨_, hroots⟩, _⟩
  have hnone := ((packageOf_correct uiAndServer uiFile).2).mpr (hroots uiFile (.head _))
  revert hnone
  decide +kernel

/-- The lockfile runs both packages, with a file of the ui package only
that one. -/
theorem lockfile_runs_more : ¬ ∀ (workspace : LocatedWorkspace) (rootAffectsAll : Bool)
    (files files' : List Path), files ⊆ files' →
      ∀ name ∈ activePackages workspace rootAffectsAll files,
        name ∈ activePackages workspace rootAffectsAll files' := by
  intro h
  have hserver : "server" ∈ activePackages uiAndServer true [["bun.lock"]] := by decide +kernel
  have hnot : "server" ∉ activePackages uiAndServer true [["bun.lock"], uiFile] := by
    decide +kernel
  exact hnot (h uiAndServer true _ _ (cons_subset_cons _ (nil_subset _)) _ hserver)

end Vertz.Proofs
