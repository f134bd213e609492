import Mathlib.Order.WithBot
import Vertz.Spec.Resolution

/-!
# `Vertz.Proofs.Hoist`: where hoisting puts a package
-/

namespace Vertz.Proofs

open Vertz.Lib
open Vertz.Native.Pm
open Vertz.Spec List SortedMap

section

variable {V R : Type} [LinearOrder V] {semver : Semver V R}

/-! ### The order of versions -/

/-- A version's place in the order; what does not parse is at the bottom. -/
def rank (semver : Semver V R) (version : String) : WithBot V := semver.parseVersion version

theorem compareVersions_eq (a b : String) :
    compareVersions semver a b = compare (rank semver a) (rank semver b) := by
  unfold compareVersions rank
  cases semver.parseVersion a with
  | none =>
    cases semver.parseVersion b with
    | none => exact (compare_eq_iff_eq.mpr rfl).symm
    | some w => exact (compare_lt_iff_lt.mpr (WithBot.bot_lt_coe w)).symm
  | some v =>
    cases semver.parseVersion b with
    | none => exact (compare_gt_iff_gt.mpr (WithBot.bot_lt_coe v)).symm
    | some w =>
      show compare v w = compare (v : WithBot V) (w : WithBot V)
      rcases lt_trichotomy v w with h | h | h
      · rw [compare_lt_iff_lt.mpr h, compare_lt_iff_lt.mpr (WithBot.coe_lt_coe.mpr h)]
      · rw [compare_eq_iff_eq.mpr h, compare_eq_iff_eq.mpr (congrArg _ h)]
      · rw [compare_gt_iff_gt.mpr h, compare_gt_iff_gt.mpr (WithBot.coe_lt_coe.mpr h)]

variable {graph : ResolvedGraph} {p : ResolvedPackage}

theorem top_iff : TopVersion semver graph p ↔ ∀ q, InGraph graph q → q.name = p.name →
      rank semver q.version < rank semver p.version ∨
        rank semver q.version = rank semver p.version ∧ q.key ≤ p.key := by
  simp only [TopVersion, compareVersions_eq, compare_lt_iff_lt, compare_eq_iff_eq]

theorem top_unique {p q : ResolvedPackage} (hp : InGraph graph p) (hq : InGraph graph q)
    (hname : p.name = q.name) (htp : TopVersion semver graph p) (htq : TopVersion semver graph q)
    : p = q := by
  have hpq := top_iff.mp htq p hp hname
  have hqp := top_iff.mp htp q hq hname.symm
  have hkey : p.key = q.key := by
    rcases hpq with hlt | ⟨heq, hle⟩
    · rcases hqp with hlt' | ⟨heq, -⟩
      · exact absurd hlt (lt_asymm hlt')
      · exact absurd heq.symm (ne_of_lt hlt)
    · rcases hqp with hlt' | ⟨-, hle'⟩
      · exact absurd heq.symm (ne_of_lt hlt')
      · exact le_antisymm hle hle'
  rw [InGraph, hkey, hq] at hp
  exact (Option.some.inj hp).symm

/-! ### What does not depend on the nesting -/

/-- The graph with nothing nested. -/
def flatten (graph : ResolvedGraph) : ResolvedGraph :=
  { graph with packages := graph.packages.mapValues fun p => { p with nestPath := [] } }

theorem filter_flatten (graph : ResolvedGraph) (test : ResolvedPackage → Bool)
    (htest : ∀ p, test { p with nestPath := [] } = test p) :
    (flatten graph).packages.entries.filter (fun e => test e.2) =
      (graph.packages.entries.filter (fun e => test e.2)).map
        (fun e => (e.1, { e.2 with nestPath := [] })) := by
  simp only [flatten, SortedMap.mapValues, filter_map, Function.comp_def, htest]

theorem depCount_flatten (graph : ResolvedGraph) (keys : List String) (p : ResolvedPackage) :
    depCount (flatten graph) keys { p with nestPath := [] } = depCount graph keys p := by
  unfold depCount
  rw [filter_flatten graph (fun q => q.allDependencies.any fun dep =>
    keys.contains (ResolvedGraph.key dep.1 p.version) && dep.1 == p.name) (fun _ => rfl),
    length_map]

omit [LinearOrder V] in
theorem dependents_flatten (graph : ResolvedGraph) (name version : String) :
    dependents semver (flatten graph) name version = dependents semver graph name version := by
  unfold dependents
  rw [filter_flatten graph (fun q => declares semver q name version) (fun _ => rfl), map_map]
  rfl

theorem hoistedKey_flatten (graph : ResolvedGraph) (keys : List String) :
    hoistedKey semver (flatten graph) keys = hoistedKey semver graph keys := by
  have hget : ∀ key, (flatten graph).packages.get? key =
      (graph.packages.get? key).map (fun p => { p with nestPath := [] }) :=
    fun key => get?_mapValues _ _ key
  have hversion : ∀ key, versionAt (flatten graph) key = versionAt graph key := by
    intro key
    rw [versionAt, hget, Option.map_map]
    rfl
  unfold hoistedKey
  simp only [hget, hversion, Option.map_map, Function.comp_def, depCount_flatten]

/-! ### Nesting -/

/-- The package under its host. -/
def hosted (semver : Semver V R) (graph : ResolvedGraph) (p : ResolvedPackage) :
    ResolvedPackage :=
  match host semver graph p with
  | none => p
  | some parent => { p with nestPath := [parent] }

omit [LinearOrder V] in
theorem host_eq (graph : ResolvedGraph) (p : ResolvedPackage) :
    host semver graph p = (dependents semver graph p.name p.version).head? := by
  rw [dependents, head?_map, head?_filter]
  rfl

omit [LinearOrder V] in
theorem hosted_hosted (graph : ResolvedGraph) (p : ResolvedPackage) :
    hosted semver graph (hosted semver graph p) = hosted semver graph p := by
  have hsame : ∀ path, host semver graph { p with nestPath := path } = host semver graph p :=
    fun _ => rfl
  unfold hosted
  cases h : host semver graph p with
  | none => simp [h]
  | some parent => simp [hsame, h]

omit [LinearOrder V] in
theorem nest_get? {base graph : ResolvedGraph} (h : flatten graph = flatten base)
    (key k : String) : (nest semver graph key).packages.get? k =
      if k = key then (graph.packages.get? k).map (hosted semver base)
      else graph.packages.get? k := by
  have hhost : ∀ p : ResolvedPackage,
      (dependents semver graph p.name p.version).head? = host semver base p := by
    intro p
    rw [host_eq, ← dependents_flatten graph, h, dependents_flatten]
  unfold nest
  cases hget : graph.packages.get? key with
  | none =>
    by_cases hk : k = key
    · simp [hk, hget]
    · simp [hk]
  | some p =>
    simp only [hhost]
    cases hp : host semver base p with
    | none =>
      by_cases hk : k = key
      · simp [hk, hget, hosted, hp]
      · simp [hk]
    | some parent =>
      by_cases hk : k = key
      · simp [hk, hget, hosted, hp, get?_insert]
      · simp [hk, Ne.symm hk, get?_insert]

omit [LinearOrder V] in
theorem flatten_nest (graph : ResolvedGraph) (key : String) :
    flatten (nest semver graph key) = flatten graph := by
  have hpackages : (flatten (nest semver graph key)).packages = (flatten graph).packages := by
    refine ext_get? (fun k => ?_)
    show ((nest semver graph key).packages.mapValues _).get? k = (graph.packages.mapValues _).get? k
    rw [get?_mapValues, get?_mapValues, nest_get? rfl]
    split_ifs
    · rw [Option.map_map]
      refine congrArg (fun f => Option.map f _) (funext fun p => ?_)
      show ({ hosted semver graph p with nestPath := [] } : ResolvedPackage) = _
      unfold hosted
      cases host semver graph p <;> rfl
    · rfl
  have hother : (nest semver graph key).scripts = graph.scripts ∧
      (nest semver graph key).distTagResolutions = graph.distTagResolutions := by
    unfold nest
    split
    · exact ⟨rfl, rfl⟩
    · split <;> exact ⟨rfl, rfl⟩
  show ResolvedGraph.mk _ _ _ = ResolvedGraph.mk _ _ _
  rw [hother.1, hother.2]
  exact congrArg (fun packages => ResolvedGraph.mk packages _ _) hpackages

omit [LinearOrder V] in
theorem nestAll_spec {base graph : ResolvedGraph} (h : flatten graph = flatten base)
    (keys : List String) : flatten (keys.foldl (nest semver) graph) = flatten base ∧
      ∀ k, (keys.foldl (nest semver) graph).packages.get? k =
        if k ∈ keys then (graph.packages.get? k).map (hosted semver base)
        else graph.packages.get? k := by
  induction keys generalizing graph with
  | nil => exact ⟨h, fun k => by simp⟩
  | cons key keys ih =>
    obtain ⟨hflat, hget⟩ := ih ((flatten_nest graph key).trans h)
    refine ⟨hflat, fun k => ?_⟩
    rw [foldl_cons, hget, nest_get? h]
    by_cases hk : k = key
    · subst hk
      by_cases hmem : k ∈ keys
      · simp [hmem, Option.map_map, Function.comp_def, hosted_hosted]
      · simp [hmem]
    · simp [hk]

/-- One name: every version but the chosen one goes to its host. -/
theorem hoistName_spec (semver : Semver V R) {base graph : ResolvedGraph} (h : flatten graph = flatten base)
    (keys : List String) : flatten (hoistName semver graph keys) = flatten base ∧
      ∀ k, (hoistName semver graph keys).packages.get? k =
        if k ∈ keys ∧ hoistedKey semver base keys ≠ some k then
          (graph.packages.get? k).map (hosted semver base)
        else graph.packages.get? k := by
  have hkey : hoistedKey semver graph keys = hoistedKey semver base keys := by
    rw [← hoistedKey_flatten graph, h, hoistedKey_flatten]
  unfold hoistName
  rw [hkey]
  split_ifs with hone
  · obtain ⟨key, rfl⟩ := length_eq_one_iff.mp hone
    have hself : hoistedKey semver base [key] = some key := rfl
    refine ⟨h, fun k => ?_⟩
    rw [if_neg (fun hk => hk.2 (hself.trans (congrArg some (mem_singleton.mp hk.1).symm)))]
  · cases hmax : hoistedKey semver base keys with
    | none =>
      cases keys with
      | nil => exact ⟨h, fun k => by simp⟩
      | cons key keys => cases hmax
    | some top =>
      obtain ⟨hflat, hget⟩ := nestAll_spec h (keys.filter fun key => key != top)
      refine ⟨hflat, fun k => ?_⟩
      rw [hget]
      refine if_congr ?_ rfl rfl
      rw [mem_filter, bne_iff_ne]
      exact and_congr_right fun _ => not_congr ⟨fun h => congrArg some h.symm,
        fun h => (Option.some.inj h).symm⟩

theorem hoistAll_spec {base graph : ResolvedGraph} (h : flatten graph = flatten base)
    (groups : List (String × List String)) :
    ∀ k, (groups.foldl (fun g e => hoistName semver g e.2) graph).packages.get? k =
      if ∃ e ∈ groups, k ∈ e.2 ∧ hoistedKey semver base e.2 ≠ some k then
        (graph.packages.get? k).map (hosted semver base)
      else graph.packages.get? k := by
  induction groups generalizing graph with
  | nil => exact fun k => by simp
  | cons group groups ih =>
    obtain ⟨hflat, hget⟩ := hoistName_spec semver h group.2
    intro k
    rw [foldl_cons, ih hflat, hget]
    simp only [exists_mem_cons_iff]
    by_cases hhere : k ∈ group.2 ∧ hoistedKey semver base group.2 ≠ some k
    · by_cases hrest : ∃ e ∈ groups, k ∈ e.2 ∧ hoistedKey semver base e.2 ≠ some k
      · rw [if_pos hrest, if_pos hhere, if_pos (.inl hhere), Option.map_map]
        exact congrArg (fun f => Option.map f _) (funext fun p => hosted_hosted base p)
      · rw [if_neg hrest, if_pos hhere, if_pos (.inl hhere)]
    · by_cases hrest : ∃ e ∈ groups, k ∈ e.2 ∧ hoistedKey semver base e.2 ≠ some k
      · rw [if_pos hrest, if_neg hhere, if_pos (.inr hrest)]
      · rw [if_neg hrest, if_neg hhere, if_neg (by rintro (h | h); exact hhere h; exact hrest h)]

/-! ### The top version and the homes -/

/-- The keys of the packages of a name. -/
def keysOf (graph : ResolvedGraph) (name : String) : List String :=
  (graph.packages.entries.filter fun e => e.2.name = name).map Prod.fst

theorem mem_keysOf {name key : String} :
    key ∈ keysOf graph name ↔ ∃ p, graph.packages.get? key = some p ∧ p.name = name := by
  simp [keysOf, mem_entries_iff]

theorem mem_groupByName {name : String} {keys : List String} :
    (name, keys) ∈ (groupByName graph).entries ↔
      keysOf graph name ≠ [] ∧ keys = keysOf graph name := by
  rw [mem_entries_iff, groupByName, get?_groupBy]
  simp only [keysOf, map_eq_nil_iff, ne_eq]
  split_ifs with hnil
  · simp [hnil]
  · exact ⟨fun h => ⟨hnil, (Option.some.inj h).symm⟩, fun h => congrArg some h.2.symm⟩

theorem keysOf_sorted (graph : ResolvedGraph) (name : String) :
    (keysOf graph name).Pairwise (· < ·) := by
  rw [keysOf, pairwise_map]
  exact graph.packages.sorted.filter _

variable {g : Resolved}

theorem inGraph_of_get? {key : String} (h : g.graph.packages.get? key = some p)
    : InGraph g.graph p := by
  rw [InGraph, ← g.keyed key p h]
  exact h

theorem key_mem_keysOf (h : InGraph g.graph p) :
    p.key ∈ keysOf g.graph p.name := mem_keysOf.mpr ⟨p, h, rfl⟩

/-- Every version of a name has as many dependents. -/
theorem depCount_eq (h : InGraph g.graph p) :
    depCount g.graph (keysOf g.graph p.name) p =
      (g.graph.packages.entries.filter fun e =>
        e.2.allDependencies.any fun dep => dep.1 == p.name).length := by
  unfold depCount
  refine congrArg List.length (filter_congr fun e _ => ?_)
  refine congrArg (List.any _) (funext fun dep => ?_)
  cases hname : dep.1 == p.name with
  | false => simp
  | true =>
    rw [Bool.and_true, beq_iff_eq.mp hname, contains_iff_mem]
    exact key_mem_keysOf h

theorem hoistedKey_cmp {name : String} {p q : ResolvedPackage} (hp : InGraph g.graph p)
    (hq : InGraph g.graph q) (hpn : p.name = name) (hqn : q.name = name) :
    (compare (depCount g.graph (keysOf g.graph name) p)
        (depCount g.graph (keysOf g.graph name) q)).then
      (compareVersions semver p.version q.version) = .gt ↔
        rank semver q.version < rank semver p.version := by
  have hcount : depCount g.graph (keysOf g.graph name) p =
      depCount g.graph (keysOf g.graph name) q := by
    have hcp := depCount_eq hp
    have hcq := depCount_eq hq
    rw [hpn] at hcp
    rw [hqn] at hcq
    rw [hcp, hcq]
  rw [hcount, compare_eq_iff_eq.mpr rfl, compareVersions_eq]
  exact compare_gt_iff_gt

/-- The rank of the version under a key. -/
def rankAt (semver : Semver V R) (graph : ResolvedGraph) (key : String) : WithBot V :=
  rank semver (versionAt graph key)

omit [LinearOrder V] in
theorem rankAt_key (h : InGraph graph p) : rankAt semver graph p.key = rank semver p.version := by
  rw [rankAt, versionAt, show graph.packages.get? p.key = some p from h]
  rfl

theorem topVersion_of_hoistedKey (hp : InGraph g.graph p)
    (h : hoistedKey semver g.graph (keysOf g.graph p.name) = some p.key) :
    TopVersion semver g.graph p := by
  obtain ⟨pre, post, hsplit, hpre, hpost⟩ :=
    Rust.maxBy_spec (f := rankAt semver g.graph) (fun a ha b hb => by
      obtain ⟨q, hq, hqn⟩ := mem_keysOf.mp ha
      obtain ⟨r, hr, hrn⟩ := mem_keysOf.mp hb
      simp only [rankAt, versionAt, hq, hr, Option.map_some, Option.getD_some]
      exact hoistedKey_cmp (inGraph_of_get? hq) (inGraph_of_get? hr) hqn hrn) h
  rw [top_iff]
  intro q hq hname
  have hmem : q.key ∈ keysOf g.graph p.name := hname ▸ key_mem_keysOf hq
  have hsorted := keysOf_sorted g.graph p.name
  rw [hsplit] at hmem hsorted
  rcases mem_append.mp hmem with hmem | hmem
  · have hle := hpre q.key hmem
    rw [rankAt_key hq, rankAt_key hp] at hle
    have hlt := (pairwise_append.mp hsorted).2.2 q.key hmem p.key mem_cons_self
    exact (lt_or_eq_of_le hle).imp_right fun heq => ⟨heq, le_of_lt hlt⟩
  · rcases mem_cons.mp hmem with hkey | hmem
    · have hboth : some q = some p := by
        rw [← hq, hkey]
        exact hp
      rw [Option.some.inj hboth]
      exact .inr ⟨rfl, le_refl _⟩
    · have hlt := hpost q.key hmem
      rw [rankAt_key hq, rankAt_key hp] at hlt
      exact .inl hlt

theorem hoistedKey_iff (hp : InGraph g.graph p) :
    hoistedKey semver g.graph (keysOf g.graph p.name) = some p.key ↔
      TopVersion semver g.graph p := by
  refine ⟨topVersion_of_hoistedKey hp, fun htop => ?_⟩
  cases hmax : hoistedKey semver g.graph (keysOf g.graph p.name) with
  | none =>
    have hmem := key_mem_keysOf hp
    cases hkeys : keysOf g.graph p.name with
    | nil =>
      rw [hkeys] at hmem
      cases hmem
    | cons key keys =>
      rw [hkeys] at hmax
      cases hmax
  | some key =>
    obtain ⟨q, hq, hqn⟩ := mem_keysOf.mp (Rust.maxBy_mem hmax)
    have hkey := g.keyed key q hq
    have hqtop : TopVersion semver g.graph q :=
      topVersion_of_hoistedKey (inGraph_of_get? hq) (by rw [hqn, hmax, hkey])
    rw [hkey, top_unique hp (inGraph_of_get? hq) hqn.symm htop hqtop]

theorem home_top (h : TopVersion semver graph p) : home semver graph p = [] := if_pos h

theorem home_lower (h : ¬ TopVersion semver graph p) :
    home semver graph p = (host semver graph p).toList := if_neg h

theorem home_cases (semver : Semver V R) (graph : ResolvedGraph) (p : ResolvedPackage) :
    home semver graph p = [] ∨ ∃ parent, home semver graph p = [parent] := by
  by_cases h : TopVersion semver graph p
  · exact .inl (home_top h)
  · rw [home_lower h]
    cases host semver graph p with
    | none => exact .inl rfl
    | some parent => exact .inr ⟨parent, rfl⟩

theorem hoist_get? (g : Resolved) (key : String) :
    (hoist semver g.graph).packages.get? key = (g.graph.packages.get? key).map
      (fun p => { p with nestPath := home semver g.graph p }) := by
  rw [hoist, hoistAll_spec rfl]
  cases hp : g.graph.packages.get? key with
  | none => simp
  | some p =>
    have hflat := g.flat key p hp
    have hkey := g.keyed key p hp
    have hmoved : (∃ e ∈ (groupByName g.graph).entries,
        key ∈ e.2 ∧ hoistedKey semver g.graph e.2 ≠ some key) ↔
          ¬ TopVersion semver g.graph p := by
      rw [← hoistedKey_iff (inGraph_of_get? hp), ← hkey]
      constructor
      · rintro ⟨⟨name, keys⟩, he, hmem, hne⟩
        obtain ⟨-, rfl⟩ := mem_groupByName.mp he
        obtain ⟨q, hq, hname⟩ := mem_keysOf.mp hmem
        rw [hp] at hq
        rw [Option.some.inj hq, hname]
        exact hne
      · intro hne
        have hmem : key ∈ keysOf g.graph p.name := mem_keysOf.mpr ⟨p, hp, rfl⟩
        exact ⟨(p.name, keysOf g.graph p.name),
          mem_groupByName.mpr ⟨ne_nil_of_mem hmem, rfl⟩, hmem, hne⟩
    by_cases htop : TopVersion semver g.graph p
    · rw [if_neg (fun h => hmoved.mp h htop), Option.map_some, home_top htop, ← hflat]
    · rw [if_pos (hmoved.mpr htop), Option.map_some, Option.map_some, home_lower htop, hosted]
      cases host semver g.graph p with
      | none => rw [Option.toList_none, ← hflat]
      | some parent => rfl

theorem hoist_packages (g : Resolved) : (hoist semver g.graph).packages =
    g.graph.packages.mapValues (fun p => { p with nestPath := home semver g.graph p }) :=
  ext_get? fun key => by rw [hoist_get?, get?_mapValues]

end

end Vertz.Proofs
