import Vertz.Proofs.Hoist

/-!
# `Vertz.Proofs.Dedup`: what dropping versions keeps

A pass looks at one name after the other. It drops only versions of that
name, and only when one that stays satisfies every range that is declared
(`dedupName_kept`). So each pass keeps `TurnsKept`, and every pass but the
last drops a version.

`dedup_spec` puts the passes together. Ranges that only dropped packages
declare are not kept: `dedup_drops_range`.
-/

namespace Vertz.Proofs

open Vertz.Lib
open Vertz.Native.Pm
open List

/-- The root or a package of the graph declares the range. -/
def Declared (graph : ResolvedGraph) (rootDeps : SortedMap String String) (name range : String) :
    Prop :=
  (name, range) ∈ rootDeps.entries ++ graph.packages.entries.flatMap fun e => e.2.allDependencies

section

variable {V R : Type} [LinearOrder V] {semver : Semver V R} {graph g : ResolvedGraph}
  {rootDeps : SortedMap String String} {name range : String}

/-- A version of the graph satisfies the range. -/
def SatisfiedIn (semver : Semver V R) (graph : ResolvedGraph) (name range : String) : Prop :=
  ∃ e ∈ graph.packages.entries, e.2.name = name ∧
    versionSatisfiesRange semver e.2.version range = true

theorem Declared.mono (hpart : g.packages.entries ⊆ graph.packages.entries)
    (h : Declared g rootDeps name range) : Declared graph rootDeps name range := by
  rcases mem_append.mp h with hroot | hpackage
  · exact mem_append_left _ hroot
  · obtain ⟨e, he, hdep⟩ := mem_flatMap.mp hpackage
    exact mem_append_right _ (mem_flatMap.mpr ⟨e, hpart he, hdep⟩)

theorem mem_rangesByName {ranges : List String}
    (h : (rangesByName graph rootDeps).get? name = some ranges) :
    range ∈ ranges ↔ Declared graph rootDeps name range := by
  rw [rangesByName, SortedMap.get?_groupBy] at h
  split_ifs at h
  cases h
  simp [Declared]

variable {e : String × ResolvedPackage}

theorem versionAt_of_mem (h : e ∈ graph.packages.entries) : versionAt graph e.1 = e.2.version := by
  rw [versionAt, (SortedMap.mem_entries_iff graph.packages).mp h]
  rfl

/-- The packages under the keys are removed. -/
def dropAll (graph : ResolvedGraph) (keys : List String) : ResolvedGraph :=
  keys.foldl ResolvedGraph.remove graph

theorem foldl_remove (keys : List String) (graph : ResolvedGraph) (changed : Bool) :
    keys.foldl (fun st key => (st.1.remove key, true)) (graph, changed) =
      (dropAll graph keys, changed || !keys.isEmpty) := by
  induction keys generalizing graph changed with
  | nil => exact congrArg (Prod.mk graph) (Bool.or_false changed).symm
  | cons key keys ih =>
    rw [foldl_cons, ih]
    show (dropAll (graph.remove key) keys, true) = (dropAll (graph.remove key) keys, changed || true)
    rw [Bool.or_true]

theorem entries_dropAll (keys : List String) (graph : ResolvedGraph) :
    (dropAll graph keys).packages.entries =
      graph.packages.entries.filter fun e => e.1 ∉ keys := by
  induction keys generalizing graph with
  | nil => simp [dropAll]
  | cons key keys ih =>
    show (dropAll (graph.remove key) keys).packages.entries = _
    rw [ih]
    show (graph.packages.entries.filter _).filter _ = _
    rw [filter_filter]
    refine filter_congr fun e _ => ?_
    simp [Bool.and_comm]

theorem mem_dropAll {keys : List String} :
    e ∈ (dropAll graph keys).packages.entries ↔ e ∈ graph.packages.entries ∧ e.1 ∉ keys := by
  rw [entries_dropAll, mem_filter, decide_eq_true_iff]

/-! ### One pass -/

/-- The keys are versions of the name that the graph has. -/
def VersionsOf (graph : ResolvedGraph) (name : String) (keys : List String) : Prop :=
  ∀ key ∈ keys, ∃ p, (key, p) ∈ graph.packages.entries ∧ p.name = name

theorem winner_spec {keys ranges : List String} {winner : String}
    (h : dedupWinner semver graph keys ranges = some winner) :
    winner ∈ keys ∧
      ∀ range ∈ ranges, versionSatisfiesRange semver (versionAt graph winner) range = true := by
  obtain ⟨hkey, hall⟩ := mem_filter.mp (Rust.maxBy_mem h)
  exact ⟨hkey, all_eq_true.mp hall⟩

variable (semver) in
/-- What a name's turn drops are versions of it, and then one that stays
satisfies all that is declared. -/
theorem dedupName_eq (base : ResolvedGraph) (changed : Bool) {keys : List String}
    (hkeys : VersionsOf g name keys) :
    ∃ dropped, dropped ⊆ keys ∧
      dedupName semver (rangesByName base rootDeps) (g, changed) (name, keys) =
        (dropAll g dropped, changed || !dropped.isEmpty) ∧
      (dropped ≠ [] → ∃ e ∈ g.packages.entries, e.1 ∉ dropped ∧ e.2.name = name ∧
        ∀ range, Declared base rootDeps name range →
          versionSatisfiesRange semver e.2.version range = true) := by
  have hnone : ∃ dropped, dropped ⊆ keys ∧
      (g, changed) = (dropAll g dropped, changed || !dropped.isEmpty) ∧
      (dropped ≠ [] → ∃ e ∈ g.packages.entries, e.1 ∉ dropped ∧ e.2.name = name ∧
        ∀ range, Declared base rootDeps name range →
          versionSatisfiesRange semver e.2.version range = true) :=
    ⟨[], nil_subset keys, congrArg (Prod.mk g) (Bool.or_false changed).symm,
      fun h => absurd rfl h⟩
  rw [dedupName]
  split
  · exact hnone
  · split
    · exact hnone
    · next ranges hranges =>
      split
      · exact hnone
      · split
        · exact hnone
        · next winner hwinner =>
          obtain ⟨hmem, hall⟩ := winner_spec hwinner
          obtain ⟨p, hp, hname⟩ := hkeys winner hmem
          refine ⟨_, filter_subset_self _, foldl_remove _ g changed, fun _ => ?_⟩
          refine ⟨(winner, p), hp, by simp, hname, fun range hrange => ?_⟩
          have hsatisfied := hall range ((mem_rangesByName hranges).mpr hrange)
          rwa [versionAt_of_mem hp] at hsatisfied

/-- What the turns of a pass keep. -/
structure TurnsKept (semver : Semver V R) (rootDeps : SortedMap String String)
    (base graph : ResolvedGraph) (changed : Bool) : Prop where
  part : graph.packages.entries ⊆ base.packages.entries
  kept : ∀ name range, Declared base rootDeps name range →
    SatisfiedIn semver base name range → SatisfiedIn semver graph name range
  same : changed = false → graph = base
  shorter : graph.packages.entries.length ≤ base.packages.entries.length
  fewer : changed = true → graph.packages.entries.length < base.packages.entries.length

theorem name_of_dropped {keys dropped : List String} (hkeys : VersionsOf g name keys)
    (hsub : dropped ⊆ keys) (he : e ∈ g.packages.entries) (hdropped : e.1 ∈ dropped) :
    e.2.name = name := by
  obtain ⟨p, hp, hname⟩ := hkeys e.1 (hsub hdropped)
  rw [SortedMap.mem_entries_iff] at hp
  have hget := (SortedMap.mem_entries_iff g.packages).mp he
  rwa [Option.some.inj (hget.symm.trans hp)]

theorem dedupName_kept {base : ResolvedGraph} {changed : Bool} {keys : List String}
    (h : TurnsKept semver rootDeps base g changed) (hkeys : VersionsOf g name keys) :
    ∃ g' changed', dedupName semver (rangesByName base rootDeps) (g, changed) (name, keys) =
        (g', changed') ∧ TurnsKept semver rootDeps base g' changed' ∧
      ∀ e ∈ g.packages.entries, e.2.name ≠ name → e ∈ g'.packages.entries := by
  obtain ⟨dropped, hsub, heq, hstays⟩ := dedupName_eq semver base changed hkeys
  refine ⟨_, _, heq, ?_, fun e he hne =>
    mem_dropAll.mpr ⟨he, fun hdropped => hne (name_of_dropped hkeys hsub he hdropped)⟩⟩
  cases dropped with
  | nil =>
    show TurnsKept semver rootDeps base g (changed || false)
    rwa [Bool.or_false]
  | cons key rest =>
    have hshorter : (dropAll g (key :: rest)).packages.entries.length <
        g.packages.entries.length := by
      obtain ⟨p, hp, _⟩ := hkeys key (hsub mem_cons_self)
      rw [entries_dropAll, length_filter_lt_length_iff_exists]
      exact ⟨(key, p), hp, by simp⟩
    have hlt := Nat.lt_of_lt_of_le hshorter h.shorter
    refine ⟨fun e he => h.part (mem_dropAll.mp he).1, fun name' range hdeclared hsat => ?_, ?_,
      Nat.le_of_lt hlt, fun _ => hlt⟩
    · by_cases hname : name' = name
      · subst hname
        obtain ⟨e, he, hstay, hename, hall⟩ := hstays (cons_ne_nil _ _)
        exact ⟨e, mem_dropAll.mpr ⟨he, hstay⟩, hename, hall range hdeclared⟩
      · obtain ⟨e, he, hename, hrange⟩ := h.kept name' range hdeclared hsat
        refine ⟨e, mem_dropAll.mpr ⟨he, fun hdropped => hname ?_⟩, hename, hrange⟩
        rw [← hename]
        exact name_of_dropped hkeys hsub he hdropped
    · intro hchanged
      rw [isEmpty_cons, Bool.not_false, Bool.or_true] at hchanged
      cases hchanged

theorem dedupNames_kept {base : ResolvedGraph} {changed : Bool}
    (groups : List (String × List String)) (hnames : (groups.map Prod.fst).Nodup)
    (hgroups : ∀ group ∈ groups, VersionsOf g group.1 group.2)
    (h : TurnsKept semver rootDeps base g changed) :
    ∃ g' changed', groups.foldl (dedupName semver (rangesByName base rootDeps)) (g, changed) =
      (g', changed') ∧ TurnsKept semver rootDeps base g' changed' := by
  induction groups generalizing g changed with
  | nil => exact ⟨g, changed, rfl, h⟩
  | cons group groups ih =>
    obtain ⟨hfresh, hnames⟩ := nodup_cons.mp hnames
    obtain ⟨g', changed', heq, hkept, hothers⟩ :=
      dedupName_kept h (hgroups group mem_cons_self)
    rw [foldl_cons, heq]
    refine ih hnames (fun other hother key hkey => ?_) hkept
    -- the versions of a name are there until its own turn
    obtain ⟨p, hp, hname⟩ := hgroups other (mem_cons_of_mem _ hother) key hkey
    refine ⟨p, hothers _ hp fun hsame => hfresh ?_, hname⟩
    rw [← hsame, hname]
    exact mem_map_of_mem hother

theorem dedupPass_kept (semver : Semver V R) (graph : ResolvedGraph)
    (rootDeps : SortedMap String String) :
    ∃ g changed, dedupPass semver graph rootDeps = (g, changed) ∧
      TurnsKept semver rootDeps graph g changed := by
  have hgroups : ∀ group ∈ (groupByName graph).entries, VersionsOf graph group.1 group.2 := by
    intro group hgroup key hkey
    obtain ⟨_, hkeys⟩ := mem_groupByName.mp hgroup
    rw [hkeys] at hkey
    obtain ⟨p, hp, hname⟩ := mem_keysOf.mp hkey
    exact ⟨p, (SortedMap.mem_entries_iff graph.packages).mpr hp, hname⟩
  exact dedupNames_kept _ (groupByName graph).keys_nodup hgroups
    ⟨fun _ h => h, fun _ _ _ h => h, fun _ => rfl, Nat.le_refl _, nofun⟩

/-! ### All passes -/

/-- A pass that drops a version. -/
def DedupStep (semver : Semver V R) (rootDeps : SortedMap String String)
    (graph g : ResolvedGraph) : Prop := dedupPass semver graph rootDeps = (g, true)

variable (semver rootDeps) in
theorem dedupLoop_spec (fuel : ℕ) (graph : ResolvedGraph)
    (hfuel : graph.packages.entries.length < fuel) :
    Relation.ReflTransGen (DedupStep semver rootDeps) graph
        (dedupLoop semver rootDeps fuel graph) ∧
      dedupPass semver (dedupLoop semver rootDeps fuel graph) rootDeps =
        (dedupLoop semver rootDeps fuel graph, false) := by
  induction fuel generalizing graph with
  | zero => omega
  | succ fuel ih =>
    obtain ⟨g, changed, hpass, hkept⟩ := dedupPass_kept semver graph rootDeps
    rw [dedupLoop, hpass]
    cases changed with
    | true =>
      have hfewer := hkept.fewer rfl
      obtain ⟨hsteps, hlast⟩ := ih g (by omega)
      exact ⟨.head hpass hsteps, hlast⟩
    | false =>
      have hsame := hkept.same rfl
      subst hsame
      exact ⟨.refl, hpass⟩

theorem passes_kept {final : ResolvedGraph}
    (h : Relation.ReflTransGen (DedupStep semver rootDeps) graph final) :
    final.packages.entries ⊆ graph.packages.entries ∧
      ∀ name range, Declared final rootDeps name range → SatisfiedIn semver graph name range →
        SatisfiedIn semver final name range := by
  induction h using Relation.ReflTransGen.head_induction_on with
  | refl => exact ⟨fun _ h => h, fun _ _ _ h => h⟩
  | @head graph g hstep _ ih =>
    obtain ⟨g', changed, hpass, hkept⟩ := dedupPass_kept semver graph rootDeps
    rw [DedupStep, hpass] at hstep
    cases hstep
    refine ⟨fun e he => hkept.part (ih.1 he), fun name range hdeclared hsat => ?_⟩
    exact ih.2 name range hdeclared
      (hkept.kept name range (hdeclared.mono fun e he => hkept.part (ih.1 he)) hsat)

/-- Passes follow each other until one drops nothing. No version is added,
the ranges that are still declared are satisfied if they were, and nothing
is left to drop. -/
theorem dedup_spec (semver : Semver V R) (graph : ResolvedGraph)
    (rootDeps : SortedMap String String) :
    (Relation.ReflTransGen (DedupStep semver rootDeps) graph (dedup semver graph rootDeps) ∧
      dedupPass semver (dedup semver graph rootDeps) rootDeps =
        (dedup semver graph rootDeps, false)) ∧
    (dedup semver graph rootDeps).packages.entries ⊆ graph.packages.entries ∧
    (∀ name range, Declared (dedup semver graph rootDeps) rootDeps name range →
      SatisfiedIn semver graph name range →
      SatisfiedIn semver (dedup semver graph rootDeps) name range) ∧
    dedup semver (dedup semver graph rootDeps) rootDeps = dedup semver graph rootDeps := by
  have hloop := dedupLoop_spec semver rootDeps _ graph
    (Nat.lt_succ_self _)
  obtain ⟨hpart, hkept⟩ := passes_kept hloop.1
  have hlast : dedupPass semver (dedup semver graph rootDeps) rootDeps =
      (dedup semver graph rootDeps, false) := hloop.2
  refine ⟨hloop, hpart, hkept, ?_⟩
  show dedupLoop semver rootDeps _ (dedup semver graph rootDeps) = _
  rw [dedupLoop, hlast]

end

/-! ### Ranges of dropped packages -/

/-- Two versions of a tool, each with its own version of a binary. -/
def twoTools : ResolvedGraph :=
  { ResolvedGraph.empty with
    packages := .ofEntries ([barePackage "app" "1.0.0" [("tool", "^1.0.0")],
      barePackage "tool" "1.0.0" [("binary", "1.0.0")],
      barePackage "tool" "1.5.0" [("binary", "1.5.0")], barePackage "binary" "1.0.0" [],
      barePackage "binary" "1.5.0" []].map fun p => (p.key, p)) }

/-- The root wants the older tool, so the newer one is dropped, and then
the binary that only the newer one asks for. -/
theorem dedup_drops_range :
    ¬ ∀ (graph : ResolvedGraph) (rootDeps : SortedMap String String) (name range : String),
      Declared graph rootDeps name range → SatisfiedIn caretSemver graph name range →
        SatisfiedIn caretSemver (dedup caretSemver graph rootDeps) name range := by
  intro hall
  have hroot := hall twoTools (.ofEntries [("app", "^1.0.0"), ("tool", "1.0.0")]) "binary" "1.5.0"
    (by unfold Declared; decide +kernel) (by unfold SatisfiedIn; decide +kernel)
  revert hroot
  unfold SatisfiedIn
  decide +kernel

end Vertz.Proofs
