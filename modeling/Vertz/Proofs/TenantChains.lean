import Mathlib.Algebra.Order.BigOperators.Group.List
import Mathlib.Order.WellFounded
import Vertz.Lib.Frontier
import Vertz.Proofs.TenantGraphs
import Vertz.Server.Entity.TenantChain

/-!
# `Vertz.Proofs.TenantChains`: the chain of an indirectly scoped model

`IsTenantChain` says what a chain is: relations with foreign keys lead
from the model to one that has a foreign key to the root, and no model on
the way is shared. `resolveTenantChain` is the search of `Lib.Frontier`
over the last models of their tables that the graph lists, so it finds a
shortest chain of all exactly when one of these goes through such models
only. Where no two models share a table and all relations have foreign
keys every chain does.
-/

namespace Vertz.Proofs

open Vertz.Lib
open Vertz.Db
open Vertz.Db.Client
open Vertz.Server.Entity hiding TenantLevel
open List Record

/-! ### Chains -/

variable {registry : ModelRegistry}

/-- Hops lead from a model to another: relations with foreign keys, each
to a model that can be on the way. -/
inductive Leads (registry : ModelRegistry) (passable : Model → Prop) (start : Model) :
    List TenantChainHop → Model → Prop where
  | here : Leads registry passable start [] start
  | step {hops : List TenantChainHop} {model next : Model} {rel : String × RelationDef}
      {fk pk : String} (hleads : Leads registry passable start hops model)
      (hrel : rel ∈ model.2.relations.entries) (hone : rel.2.type = .one)
      (hfk : rel.2.key? = some fk) (hnext : next ∈ registry.entries)
      (htarget : rel.2.target = next.2.table.name) (hpass : passable next)
      (hpk : resolvePrimaryKey next.2.table.toTableDef rel.2.target = .ok pk) :
      Leads registry passable start (hops ++ [⟨rel.2.target, fk, pk⟩]) next

/-- The model has the foreign key to the table. -/
def HasKeyTo (model : Model) (tableName foreignKey : String) : Prop :=
  ∃ rel ∈ model.2.relations.entries, rel.2.type = .one ∧ rel.2.key? = some foreignKey ∧
    rel.2.target = tableName

/-- The hops of the chain lead from the model to one whose foreign key to
the root is the tenant column. -/
def IsTenantChain (registry : ModelRegistry) (graph : TenantGraph) (passable : Model → Prop)
    (key : String) (chain : TenantChain) : Prop :=
  ∃ e last, (key, e) ∈ registry.entries ∧ Leads registry passable (key, e) chain.hops last ∧
    ∃ root ∈ graph.levels.head?, HasKeyTo last root.tableName chain.tenantColumn

def NotShared (model : Model) : Prop := model.2.table.shared = false

/-- The chain is one with the fewest hops. -/
def IsShortestChain (registry : ModelRegistry) (graph : TenantGraph) (key : String)
    (chain : TenantChain) : Prop :=
  IsTenantChain registry graph NotShared key chain ∧
    ∀ chain', IsTenantChain registry graph NotShared key chain' →
      chain.hops.length ≤ chain'.hops.length

/-- The graph lists the model, and its table's name stands for it. -/
structure Listed (registry : ModelRegistry) (graph : TenantGraph) (model : Model) : Prop where
  notShared : NotShared model
  last : tableNameToKey registry model.2.table.name = some model.1
  named : model.1 ≠ ""
  listed : model.1 ∈ graph.levels.map Db.Client.TenantLevel.key ∨ model.1 ∈ graph.directlyScoped ∨
    model.1 ∈ graph.indirectlyScoped

/-- One of the shortest chains leads through listed models. -/
def ListedWay (registry : ModelRegistry) (graph : TenantGraph) (key : String) : Prop :=
  ∃ chain, IsTenantChain registry graph (Listed registry graph) key chain ∧
    IsShortestChain registry graph key chain

/-- The tables that relations lead to have keys of one column. -/
def SingleKeys (registry : ModelRegistry) : Prop :=
  ∀ model ∈ registry.entries, ∀ rel ∈ model.2.relations.entries, rel.2.type = .one →
    ∀ target ∈ registry.entries, rel.2.target = target.2.table.name →
      (getPrimaryKeyColumns target.2.table.toTableDef).length ≤ 1

/-- The models have names and the `ref.one` relations foreign keys. -/
def Keyed (registry : ModelRegistry) : Prop :=
  ∀ model ∈ registry.entries, model.1 ≠ "" ∧
    ∀ rel ∈ model.2.relations.entries, rel.2.type = .one → rel.2.key? ≠ none

variable {hops : List TenantChainHop}

theorem Leads.mono {passable passable' : Model → Prop} {start model : Model}
    (hpass : ∀ model, passable model → passable' model)
    (h : Leads registry passable start hops model) : Leads registry passable' start hops model := by
  induction h with
  | here => exact .here
  | step _ hrel hone hfk hnext htarget hpassable hpk ih =>
    exact .step ih hrel hone hfk hnext htarget (hpass _ hpassable) hpk

theorem Leads.mem {passable : Model → Prop} {start model : Model}
    (h : Leads registry passable start hops model) (hstart : start ∈ registry.entries) :
    model ∈ registry.entries := by
  cases h with
  | here => exact hstart
  | step _ _ _ _ hnext => exact hnext

theorem Leads.eq_start {passable : Model → Prop} {start model : Model}
    (h : Leads registry passable start hops model) (hnil : hops = []) : start = model := by
  cases h with
  | here => rfl
  | step => simp at hnil

theorem Leads.head {passable : Model → Prop} {model next last : Model} {rel : String × RelationDef}
    {fk pk : String} (hrel : rel ∈ model.2.relations.entries) (hone : rel.2.type = .one)
    (hfk : rel.2.key? = some fk) (hnext : next ∈ registry.entries)
    (htarget : rel.2.target = next.2.table.name) (hpass : passable next)
    (hpk : resolvePrimaryKey next.2.table.toTableDef rel.2.target = .ok pk)
    (h : Leads registry passable next hops last) :
    Leads registry passable model (⟨rel.2.target, fk, pk⟩ :: hops) last := by
  induction h with
  | here => exact .step .here hrel hone hfk hnext htarget hpass hpk
  | step _ hrel' hone' hfk' hnext' htarget' hpass' hpk' ih =>
    exact .step ih hrel' hone' hfk' hnext' htarget' hpass' hpk'

/-! ### The search -/

/-- The name of the key column, when there is at most one. -/
def keyColumn (table : TableDef) : String := (getPrimaryKeyColumns table).head?.getD "id"

theorem resolvePrimaryKey_single {table : TableDef} (name : String)
    (h : (getPrimaryKeyColumns table).length ≤ 1) :
    resolvePrimaryKey table name = .ok (keyColumn table) := by
  unfold resolvePrimaryKey
  dsimp only
  rw [if_neg (by omega), keyColumn]

/-- Where a relation leads in the search, visited or not. -/
def edgeOf (scope : ChainScope) (rel : String × RelationDef) : Option (String × TenantChainHop) :=
  match rel.2.type, rel.2.key? with
  | .one, some fk =>
    match tableNameToKey scope.registry rel.2.target with
    | none => none
    | some targetKey =>
      if passedOver scope [] targetKey then none
      else (scope.registry.get? targetKey).map fun target =>
        (targetKey, ⟨rel.2.target, fk, keyColumn target.table.toTableDef⟩)
  | _, _ => none

def edgesOf (scope : ChainScope) (key : String) : List (String × TenantChainHop) :=
  match scope.registry.get? key with
  | none => []
  | some entry => entry.relations.entries.filterMap (edgeOf scope)

def columnAt (scope : ChainScope) (key : String) (hop : TenantChainHop) : Option String :=
  (scope.registry.get? key).bind fun entry => tenantColumnAt scope key entry hop.foreignKey

theorem passedOver_iff (scope : ChainScope) (visited : List String) (key : String) :
    passedOver scope visited key ↔ passedOver scope [] key ∨ key ∈ visited := by
  simp only [passedOver, not_mem_nil, false_or]
  tauto

/-- The relation does not lead to a table with a composite key. -/
def LeadsToSingleKey (scope : ChainScope) (rel : String × RelationDef) : Prop :=
  ∀ key target, tableNameToKey scope.registry rel.2.target = some key →
    scope.registry.get? key = some target → rel.2.type = .one →
      (getPrimaryKeyColumns target.table.toTableDef).length ≤ 1

theorem follow_eq (scope : ChainScope) (visited : List String) (hops : List TenantChainHop)
    {rel : String × RelationDef} (hkey : LeadsToSingleKey scope rel) :
    follow scope visited hops rel.2 = .ok
      (match edgeOf scope rel with
      | none => .skipped
      | some (key, hop) =>
        if key ∈ visited then .skipped
        else
          match columnAt scope key hop with
          | some tenantColumn => .reached (.ofHops hops hop tenantColumn)
          | none => .queued key (hops ++ [hop])) := by
  unfold follow edgeOf
  cases hone : rel.2.type with
  | many => rfl
  | one =>
    cases hfk : rel.2.key? with
    | none => rfl
    | some fk =>
      cases htarget : tableNameToKey scope.registry rel.2.target with
      | none => rfl
      | some targetKey =>
        dsimp only
        by_cases hpass : passedOver scope [] targetKey
        · rw [if_pos ((passedOver_iff _ _ _).mpr (.inl hpass)), if_pos hpass]
        · rw [if_neg hpass]
          cases hentry : scope.registry.get? targetKey with
          | none => simp
          | some entry =>
            have hpk := resolvePrimaryKey_single rel.2.target (hkey _ _ htarget hentry hone)
            by_cases hseen : targetKey ∈ visited
            · rw [if_pos ((passedOver_iff _ _ _).mpr (.inr hseen))]
              simp [hseen]
            · have hopen : ¬ passedOver scope visited targetKey := by
                rw [passedOver_iff]
                exact not_or.mpr ⟨hpass, hseen⟩
              rw [if_neg hopen]
              dsimp only
              rw [hpk]
              simp only [ok_bind, Option.map_some, hseen, if_false, columnAt, hentry,
                Option.bind_some]
              split <;> simp_all [pure, Except.pure]

/-- The chain has these hops and this tenant column. -/
def HasParts (chain : TenantChain) (hops : List TenantChainHop) (tenantColumn : String) : Prop :=
  chain.hops = hops ∧ chain.tenantColumn = tenantColumn

/-- The loop over the relations does what the search does at a node. -/
theorem followAll_spec (scope : ChainScope) (visited : List String) (hops : List TenantChainHop)
    (rels : List (String × RelationDef)) (hkeys : ∀ rel ∈ rels, LeadsToSingleKey scope rel)
    (queue : List QueueItem) :
    match Frontier.expand (columnAt scope) visited hops (rels.filterMap (edgeOf scope)) queue with
    | .inl (found, tenantColumn) => ∃ chain, HasParts chain found tenantColumn ∧
        followAll scope visited hops rels queue = .ok (.inl chain)
    | .inr queue' => followAll scope visited hops rels queue = .ok (.inr queue') := by
  induction rels generalizing queue with
  | nil => rfl
  | cons rel rels ih =>
    obtain ⟨hkey, hkeys⟩ := forall_mem_cons.mp hkeys
    have ih := ih hkeys
    rw [followAll, follow_eq scope visited hops hkey, ok_bind]
    cases hedge : edgeOf scope rel with
    | none =>
      rw [filterMap_cons_none hedge]
      exact ih queue
    | some edge =>
      obtain ⟨key, hop⟩ := edge
      rw [filterMap_cons_some hedge, Frontier.expand]
      by_cases hseen : key ∈ visited
      · simp only [hseen, if_true]
        exact ih queue
      · simp only [hseen, if_false]
        cases hcolumn : columnAt scope key hop with
        | some tenantColumn =>
          exact ⟨_, ⟨TenantChain.ofHops_hops hops hop tenantColumn,
            TenantChain.ofHops_tenantColumn hops hop tenantColumn⟩, rfl⟩
        | none => exact ih _

/-- No relation leads to a table with a composite key. -/
def SingleTargets (scope : ChainScope) : Prop :=
  ∀ model ∈ scope.registry.entries, ∀ rel ∈ model.2.relations.entries, LeadsToSingleKey scope rel

/-- The result is that of the search. -/
def AnswersChain (result : Option (Except String (Option TenantChain)))
    (found : Frontier.Result TenantChainHop String) : Prop :=
  match found with
  | .found hops tenantColumn =>
    ∃ chain, HasParts chain hops tenantColumn ∧ result = some (.ok (some chain))
  | .missing => result = some (.ok none)
  | .running => result = none

theorem searchChain_answers {scope : ChainScope} (hkeys : SingleTargets scope) (fuel : ℕ)
    (visited : List String) (queue : List QueueItem) :
    AnswersChain (searchChain scope fuel visited queue)
      (Frontier.seek (edgesOf scope) (columnAt scope) fuel visited queue) := by
  induction fuel generalizing visited queue with
  | zero => rfl
  | succ fuel ih =>
    cases queue with
    | nil => rfl
    | cons item queue =>
      obtain ⟨key, hops⟩ := item
      rw [searchChain, Frontier.seek]
      by_cases hseen : key ∈ visited
      · rw [if_pos hseen, if_pos hseen]
        exact ih visited queue
      · rw [if_neg hseen, if_neg hseen]
        unfold edgesOf
        cases hentry : scope.registry.get? key with
        | none => exact ih (key :: visited) queue
        | some entry =>
          have hmem : (key, entry) ∈ scope.registry.entries :=
            (mem_entries_iff _).mpr hentry
          have hfollow := followAll_spec scope (key :: visited) hops
            entry.relations.entries (hkeys _ hmem) queue
          dsimp only
          split at hfollow
          · next found tenantColumn hfound =>
              obtain ⟨chain, hparts, hchain⟩ := hfollow
              rw [hchain, hfound]
              exact ⟨chain, hparts, rfl⟩
          · next queue' hqueue =>
              rw [hfollow, hqueue]
              exact ih (key :: visited) queue'

/-- The whole search, from the model itself. -/
theorem resolveTenantChain_answers {graph : TenantGraph} {key root : String}
    {rootEntry entry : ModelRegistryEntry} (hlisted : key ∈ graph.indirectlyScoped)
    (hroot : graph.root = some root) (hrootEntry : registry.get? root = some rootEntry)
    (hentry : registry.get? key = some entry)
    (hkeys : SingleTargets (chainScope graph registry root rootEntry.table.name)) :
    AnswersChain (resolveTenantChain key graph registry)
      (Frontier.seek (edgesOf (chainScope graph registry root rootEntry.table.name))
        (columnAt (chainScope graph registry root rootEntry.table.name))
        (relationCount registry + 2) [] [(key, [])]) := by
  generalize hscope : chainScope graph registry root rootEntry.table.name = scope at hkeys ⊢
  have hregistry : scope.registry = registry := by
    rw [← hscope]
    rfl
  have hmem : (key, entry) ∈ scope.registry.entries := by
    rw [hregistry]
    exact (mem_entries_iff _).mpr hentry
  have hfollow := followAll_spec scope [key] [] entry.relations.entries (hkeys _ hmem) []
  have hedges : edgesOf scope key = entry.relations.entries.filterMap (edgeOf scope) := by
    rw [edgesOf, hregistry, hentry]
  unfold resolveTenantChain
  rw [if_neg (not_not.mpr hlisted), hroot]
  dsimp only
  rw [hrootEntry, hentry]
  dsimp only
  rw [hscope, Frontier.seek, if_neg not_mem_nil, hedges]
  split at hfollow
  · next found tenantColumn hfound =>
      obtain ⟨chain, hparts, hchain⟩ := hfollow
      rw [hchain, hfound]
      exact ⟨chain, hparts, rfl⟩
  · next queue hqueue =>
      rw [hfollow, hqueue]
      exact searchChain_answers hkeys _ _ _

/-! ### The graph under the search -/

section Computed

variable {root : Db.Client.TenantLevel} {rest : List Db.Client.TenantLevel}

/-- An indirectly scoped model does not refer to the root. -/
theorem no_ref_to_root (hone : OneRef root (markedKeys registry) registry.entries)
    {key : String} {e : ModelRegistryEntry}
    (hkey : key ∈ (graphWith registry root (root :: rest)).indirectlyScoped)
    (he : (key, e) ∈ registry.entries) {rel : String × RelationDef}
    (hrel : rel ∈ e.relations.entries) (htype : rel.2.type = .one) :
    rel.2.target ≠ root.tableName := by
  intro htarget
  obtain ⟨htenant, hshared, hdirect, _⟩ := connected_of_indirectlyScoped hkey
  have hle := hone (key, e) he (by rw [mem_markedKeys]; exact not_or.mpr ⟨htenant, hshared⟩)
  have hne : (refsTo e root.tableName).length ≠ 1 := fun hlength =>
    hdirect (mem_directKeys.mpr ⟨e, he, htenant, hshared, hlength⟩)
  have hmem : rel.1 ∈ refsTo e root.tableName :=
    mem_map.mpr ⟨rel, mem_filter.mpr ⟨hrel, by simp [htype, htarget]⟩, rfl⟩
  have hpos := length_pos_of_mem hmem
  dsimp only at hle
  omega

theorem fkFromRelations_some {e : ModelRegistryEntry} {name fk : String}
    (h : resolveTenantFkFromRelations e name = some fk) :
    ∃ rel ∈ e.relations.entries, rel.2.type = .one ∧ rel.2.key? = some fk ∧
      rel.2.target = name := by
  obtain ⟨rel, hrel, hfk⟩ := exists_of_findSome?_eq_some h
  split at hfk
  · next fk' hone hkey =>
      split at hfk
      · next htarget =>
          cases hfk
          exact ⟨rel, hrel, hone, hkey, htarget⟩
      · cases hfk
  · cases hfk

theorem fkFromRelations_isSome {e : ModelRegistryEntry} {name fk : String}
    {rel : String × RelationDef} (hrel : rel ∈ e.relations.entries) (hone : rel.2.type = .one)
    (hkey : rel.2.key? = some fk) (htarget : rel.2.target = name) :
    (resolveTenantFkFromRelations e name).isSome = true := by
  refine findSome?_isSome_iff.mpr ⟨rel, hrel, ?_⟩
  simp [hone, hkey, htarget]

/-- A target at which the search ends. -/
def EndsAt (scope : ChainScope) (key : String) : Prop :=
  ∃ e, scope.registry.get? key = some e ∧ (key = scope.root ∨
    key ∈ scope.directlyScopedKeys ∧
      (resolveTenantFkFromRelations e scope.rootTableName).isSome = true)

theorem columnAt_isSome (scope : ChainScope) (key : String) (hop : TenantChainHop) :
    (columnAt scope key hop).isSome = true ↔ EndsAt scope key := by
  unfold columnAt EndsAt tenantColumnAt
  cases hentry : scope.registry.get? key with
  | none => simp
  | some e =>
    by_cases hroot : key = scope.root
    · simp [hroot]
    · by_cases hdirect : key ∈ scope.directlyScopedKeys
      · simp [hroot, hdirect]
      · simp [hroot, hdirect]

/-- What an edge of the search is. -/
structure IsEdge (scope : ChainScope) (entry : ModelRegistryEntry) (key : String)
    (hop : TenantChainHop) (rel : String × RelationDef) (target : ModelRegistryEntry) : Prop where
  mem : rel ∈ entry.relations.entries
  one : rel.2.type = .one
  foreignKey : rel.2.key? = some hop.foreignKey
  tableName : hop.tableName = rel.2.target
  named : tableNameToKey scope.registry rel.2.target = some key
  open_ : ¬ passedOver scope [] key
  targetMem : (key, target) ∈ scope.registry.entries
  column : hop.targetColumn = keyColumn target.table.toTableDef

theorem mem_edgesOf {scope : ChainScope} {start key : String} {hop : TenantChainHop}
    {entry : ModelRegistryEntry} (hentry : (start, entry) ∈ scope.registry.entries) :
    (key, hop) ∈ edgesOf scope start ↔ ∃ rel target, IsEdge scope entry key hop rel target := by
  rw [edgesOf, (mem_entries_iff _).mp hentry, mem_filterMap]
  constructor
  · rintro ⟨rel, hrel, hedge⟩
    unfold edgeOf at hedge
    split at hedge
    · next fk hone hfk =>
        split at hedge
        · cases hedge
        · next targetKey htarget =>
            split at hedge
            · cases hedge
            · next hopen =>
                obtain ⟨target, hget, heq⟩ := Option.map_eq_some_iff.mp hedge
                cases heq
                exact ⟨rel, target, hrel, hone, hfk, rfl, htarget, hopen,
                  (mem_entries_iff _).mpr hget, rfl⟩
    · cases hedge
  · rintro ⟨rel, target, h⟩
    refine ⟨rel, h.mem, ?_⟩
    obtain ⟨tableName, foreignKey, targetColumn⟩ := hop
    unfold edgeOf
    rw [h.one, h.foreignKey]
    dsimp only
    rw [h.named]
    dsimp only
    have htable : tableName = rel.2.target := h.tableName
    have hcolumn : targetColumn = keyColumn target.table.toTableDef := h.column
    rw [if_neg h.open_, (mem_entries_iff _).mp h.targetMem, htable, hcolumn]
    rfl

/-- A target is open to the search exactly when its model is listed. -/
theorem open_iff {graph : TenantGraph} {rootName rootTable key name : String}
    {target : ModelRegistryEntry} (hkey : tableNameToKey registry name = some key)
    (htarget : (key, target) ∈ registry.entries)
    (hshared : ∀ key, key ∈ graph.shared ↔ IsShared registry key)
    (hroot : rootName ∈ graph.levels.map Db.Client.TenantLevel.key) :
    ¬ passedOver (chainScope graph registry rootName rootTable) [] key ↔
      Listed registry graph (key, target) := by
  have hname : target.table.name = name := by
    obtain ⟨e, he, hname⟩ := tableNameToKey_some hkey
    rwa [entry_unique htarget he]
  have hshared' : key ∈ graph.shared ↔ ¬ NotShared (key, target) := by
    rw [hshared]
    constructor
    · rintro ⟨e, he, hs⟩ hnot
      rw [entry_unique he htarget] at hs
      rw [NotShared, hs] at hnot
      cases hnot
    · intro hs
      exact ⟨target, htarget, by simpa [NotShared] using hs⟩
  simp only [passedOver, chainScope, not_mem_nil, false_or, not_or, not_and_or, not_not,
    mem_append, mem_singleton, hshared']
  constructor
  · rintro ⟨hne, hopen, hlisted⟩
    refine ⟨hopen, by rw [hname]; exact hkey, hne, ?_⟩
    rcases hlisted with ((hdirect | rfl) | hlevel) | hindirect
    · exact .inr (.inl hdirect)
    · exact .inl hroot
    · exact .inl hlevel
    · exact .inr (.inr hindirect)
  · rintro ⟨hopen, _, hne, hlisted⟩
    refine ⟨hne, hopen, ?_⟩
    rcases hlisted with hlevel | hdirect | hindirect
    · exact .inl (.inr hlevel)
    · exact .inl (.inl (.inl hdirect))
    · exact .inr hindirect

end Computed

/-! ### Chains and the paths of the search -/

/-- No indirectly scoped model refers to the root. -/
def NoRefs (registry : ModelRegistry) (graph : TenantGraph) (root : Db.Client.TenantLevel) : Prop :=
  ∀ key e, key ∈ graph.indirectlyScoped → (key, e) ∈ registry.entries →
    ∀ rel ∈ e.relations.entries, rel.2.type = .one → rel.2.target ≠ root.tableName

/-- The graph of a registry, with what the search needs to know of it. -/
structure Searchable (registry : ModelRegistry) (graph : TenantGraph)
    (root : Db.Client.TenantLevel) : Prop where
  describes : Describes registry graph
  head : graph.levels.head? = some root
  noRefs : NoRefs registry graph root
  singleKeys : SingleKeys registry

theorem searchable_of_computed {graph : TenantGraph} (hkeys : SingleKeys registry)
    (h : computeTenantGraph registry = .ok graph) {key : String}
    (hkey : key ∈ graph.indirectlyScoped) : ∃ root, Searchable registry graph root := by
  have hdescribes := computeTenantGraph_describes h
  obtain ⟨_, ⟨_, rfl⟩ | ⟨root, rest, _, hone, rfl⟩⟩ := (computeTenantGraph_ok_iff graph).mp h
  · cases hkey
  · exact ⟨root, hdescribes, rfl, fun key e hkey he rel hrel => no_ref_to_root hone hkey he hrel,
      hkeys⟩

section Search

variable {graph : TenantGraph} {root : Db.Client.TenantLevel}

namespace Searchable

theorem root_mem (h : Searchable registry graph root) : root ∈ graph.levels :=
  mem_of_mem_head? h.head

theorem root_key_mem (h : Searchable registry graph root) :
    root.key ∈ graph.levels.map Db.Client.TenantLevel.key :=
  mem_map_of_mem h.root_mem

theorem rootEntry (h : Searchable registry graph root) :
    ∃ e, registry.get? root.key = some e ∧ root.tableName = e.table.name := by
  obtain ⟨e, he, hname⟩ := h.describes.levels.tables root h.root_mem
  exact ⟨e, (mem_entries_iff _).mp he, hname⟩

/-- A listed model with a foreign key to the root ends the search. -/
theorem endsAt (h : Searchable registry graph root) {model : Model} (hm : model ∈ registry.entries)
    (hlisted : model.1 ∈ graph.levels.map Db.Client.TenantLevel.key ∨
      model.1 ∈ graph.directlyScoped ∨ model.1 ∈ graph.indirectlyScoped)
    {fk : String} (hfk : HasKeyTo model root.tableName fk) :
    EndsAt (chainScope graph registry root.key root.tableName) model.1 := by
  obtain ⟨rel, hrel, hone, hkey, htarget⟩ := hfk
  refine ⟨model.2, (mem_entries_iff _).mp hm, .inr ⟨?_, ?_⟩⟩
  · rcases hlisted with hlevel | hdirect | hindirect
    · exact mem_append_right _ hlevel
    · exact mem_append_left _ (mem_append_left _ hdirect)
    · exact absurd htarget (h.noRefs model.1 model.2 hindirect hm rel hrel hone)
  · exact fkFromRelations_isSome hrel hone hkey htarget

variable {key : String} {entry : ModelRegistryEntry}

theorem singleTargets (h : Searchable registry graph root) :
    SingleTargets (chainScope graph registry root.key root.tableName) := by
  intro model hmodel rel hrel key target hkey htarget hone
  have hmem := (mem_entries_iff _).mpr htarget
  obtain ⟨e, he, hname⟩ := tableNameToKey_some hkey
  have hsame : e = target := entry_unique he hmem
  exact h.singleKeys model hmodel rel hrel hone (key, target) hmem (by rw [← hname, hsame])

/-- The edges of the search are the hops to listed models. -/
theorem mem_edges (h : Searchable registry graph root) {model : Model}
    (hmodel : model ∈ registry.entries) {next : String} {hop : TenantChainHop} :
    (next, hop) ∈ edgesOf (chainScope graph registry root.key root.tableName) model.1 ↔
      ∃ rel target, rel ∈ model.2.relations.entries ∧ rel.2.type = .one ∧
        rel.2.key? = some hop.foreignKey ∧ hop.tableName = rel.2.target ∧
        (next, target) ∈ registry.entries ∧ rel.2.target = target.table.name ∧
        Listed registry graph (next, target) ∧
        resolvePrimaryKey target.table.toTableDef rel.2.target = .ok hop.targetColumn := by
  have hentry : (model.1, model.2) ∈
      (chainScope graph registry root.key root.tableName).registry.entries := hmodel
  rw [mem_edgesOf hentry]
  constructor
  · rintro ⟨rel, target, hedge⟩
    have hname : rel.2.target = target.table.name := by
      obtain ⟨e, he, hname⟩ := tableNameToKey_some hedge.named
      rw [← hname, entry_unique he hedge.targetMem]
    refine ⟨rel, target, hedge.mem, hedge.one, hedge.foreignKey, hedge.tableName, hedge.targetMem,
      hname, ?_, ?_⟩
    · exact (open_iff hedge.named hedge.targetMem h.describes.shared h.root_key_mem).mp hedge.open_
    · rw [hedge.column]
      exact resolvePrimaryKey_single _
        (h.singleKeys model hmodel rel hedge.mem hedge.one _ hedge.targetMem hname)
  · rintro ⟨rel, target, hrel, hone, hfk, htable, htarget, hname, hlisted, hpk⟩
    have hnamed : tableNameToKey registry rel.2.target = some next := hname ▸ hlisted.last
    refine ⟨rel, target, hrel, hone, hfk, htable, hnamed,
      (open_iff hnamed htarget h.describes.shared h.root_key_mem).mpr hlisted, htarget, ?_⟩
    rw [resolvePrimaryKey_single _ (h.singleKeys model hmodel rel hrel hone _ htarget hname)] at hpk
    exact (Except.ok.inj hpk).symm

theorem path_leads (h : Searchable registry graph root) (hentry : (key, entry) ∈ registry.entries)
    {hops : List TenantChainHop} {next : String}
    (hpath : Frontier.Path (edgesOf (chainScope graph registry root.key root.tableName)) key hops
      next) :
    ∃ e, Leads registry (Listed registry graph) (key, entry) hops (next, e) := by
  induction hpath with
  | here => exact ⟨entry, .here⟩
  | step _ hedge ih =>
    obtain ⟨e, hleads⟩ := ih
    obtain ⟨rel, target, hrel, hone, hfk, htable, htarget, hname, hlisted, hpk⟩ :=
      (h.mem_edges (hleads.mem hentry)).mp hedge
    have hstep := hleads.step hrel hone hfk htarget hname hlisted hpk
    rw [← htable] at hstep
    exact ⟨target, hstep⟩

theorem leads_path (h : Searchable registry graph root) (hentry : (key, entry) ∈ registry.entries)
    {hops : List TenantChainHop} {model : Model}
    (hleads : Leads registry (Listed registry graph) (key, entry) hops model) :
    Frontier.Path (edgesOf (chainScope graph registry root.key root.tableName)) key hops
      model.1 := by
  induction hleads with
  | here => exact .here
  | @step hops model next rel fk pk hleads hrel hone hfk hnext htarget hpass hpk ih =>
    exact ih.step ((h.mem_edges (hleads.mem hentry)).mpr
      ⟨rel, next.2, hrel, hone, hfk, rfl, hnext, htarget, hpass, hpk⟩)

/-- Where the search has come to is never the root: what refers to the
root ends the search, or is not indirectly scoped. -/
theorem ne_root (h : Searchable registry graph root) {model : Model}
    (hm : model ∈ registry.entries)
    (hlisted : model.1 ∈ graph.levels.map Db.Client.TenantLevel.key ∨
      model.1 ∈ graph.directlyScoped ∨ model.1 ∈ graph.indirectlyScoped)
    (hopen : ¬ EndsAt (chainScope graph registry root.key root.tableName) model.1)
    {rel : String × RelationDef} {target : ModelRegistryEntry} {next fk : String}
    (hrel : rel ∈ model.2.relations.entries) (hone : rel.2.type = .one)
    (hfk : rel.2.key? = some fk) (htarget : (next, target) ∈ registry.entries)
    (hname : rel.2.target = target.table.name) : next ≠ root.key := by
  rintro rfl
  obtain ⟨e, he, htable⟩ := h.rootEntry
  have hsame := entry_unique htarget ((mem_entries_iff _).mpr he)
  refine hopen (h.endsAt hm hlisted ⟨rel, hrel, hone, hfk, ?_⟩)
  rw [hname, htable, hsame]

theorem chain_of_found (h : Searchable registry graph root)
    (hentry : (key, entry) ∈ registry.entries) (hkey : key ∈ graph.indirectlyScoped)
    {hops : List TenantChainHop} {tenantColumn : String} {chain : TenantChain}
    (hparts : HasParts chain hops tenantColumn)
    (hfound : Frontier.Shortest (edgesOf (chainScope graph registry root.key root.tableName))
      (columnAt (chainScope graph registry root.key root.tableName))
      (EndsAt (chainScope graph registry root.key root.tableName)) key hops tenantColumn) :
    IsTenantChain registry graph (Listed registry graph) key chain := by
  obtain ⟨⟨labels, label, last, next, rfl, hpath, hedge, hcolumn⟩, hshort⟩ := hfound
  obtain ⟨e, hleads⟩ := h.path_leads hentry hpath
  have hm := hleads.mem hentry
  obtain ⟨rel, target, hrel, hone, hfk, htable, htarget, hname, hlisted, hpk⟩ :=
    (h.mem_edges hm).mp hedge
  have hopen : ¬ EndsAt (chainScope graph registry root.key root.tableName) last := by
    intro hends
    have := hshort labels last hpath hends
    simp at this
  have hlast : last ∈ graph.levels.map Db.Client.TenantLevel.key ∨ last ∈ graph.directlyScoped ∨
      last ∈ graph.indirectlyScoped := by
    cases hleads with
    | here => exact .inr (.inr hkey)
    | step _ _ _ _ _ _ hpass => exact hpass.listed
  have hne : next ≠ root.key := h.ne_root hm hlast hopen hrel hone hfk htarget hname
  have hstep := hleads.step hrel hone hfk htarget hname hlisted hpk
  rw [← htable] at hstep
  refine ⟨entry, (next, target), hentry, hparts.1 ▸ hstep, root, h.head, ?_⟩
  have hget : (chainScope graph registry root.key root.tableName).registry.get? next
      = some target := (mem_entries_iff _).mp htarget
  rw [columnAt, hget, Option.bind_some, tenantColumnAt] at hcolumn
  split at hcolumn
  · obtain ⟨rel', hrel', hone', hkey', htarget'⟩ := fkFromRelations_some hcolumn
    exact ⟨rel', hrel', hone', hparts.2 ▸ hkey', htarget'⟩
  · split at hcolumn
    · next heq => exact absurd heq hne
    · cases hcolumn

theorem path_of_chain (h : Searchable registry graph root) {chain : TenantChain}
    (hchain : IsTenantChain registry graph (Listed registry graph) key chain) :
    ∃ last, Frontier.Path (edgesOf (chainScope graph registry root.key root.tableName)) key
        chain.hops last ∧
      EndsAt (chainScope graph registry root.key root.tableName) last := by
  obtain ⟨e, last, he, hleads, root', hroot', hfk⟩ := hchain
  obtain rfl : root = root' := Option.some.inj (h.head.symm.trans hroot')
  refine ⟨last.1, h.leads_path he hleads, h.endsAt (hleads.mem he) ?_ hfk⟩
  generalize hhops : chain.hops = hops at hleads
  cases hleads with
  | here => cases hhops
  | step _ _ _ _ _ _ hpass => exact hpass.listed

theorem edges_closed (h : Searchable registry graph root) (a : String)
    (ha : a ∈ registry.entries.map Prod.fst) (edge : String × TenantChainHop)
    (hedge : edge ∈ edgesOf (chainScope graph registry root.key root.tableName) a) :
    edge.1 ∈ registry.entries.map Prod.fst := by
  obtain ⟨model, hmodel, rfl⟩ := mem_map.mp ha
  obtain ⟨next, hop⟩ := edge
  obtain ⟨_, target, _, _, _, _, htarget, _⟩ := (h.mem_edges hmodel).mp hedge
  exact mem_map.mpr ⟨_, htarget, rfl⟩

theorem edges_length (registry : ModelRegistry) (graph : TenantGraph) (root rootTable : String) :
    ((registry.entries.map Prod.fst).map fun key =>
      (edgesOf (chainScope graph registry root rootTable) key).length).sum ≤
        relationCount registry := by
  rw [map_map, relationCount]
  refine sum_le_sum fun model hmodel => ?_
  have hget : (chainScope graph registry root rootTable).registry.get? model.1 = some model.2 :=
    (mem_entries_iff _).mp hmodel
  show (edgesOf _ model.1).length ≤ _
  rw [edgesOf, hget]
  exact length_filterMap_le _ _

/-- The search answers with a shortest of the chains through listed
models, or there is none. -/
theorem resolveTenantChain_listed (h : Searchable registry graph root)
    (hkey : key ∈ graph.indirectlyScoped) (hentry : (key, entry) ∈ registry.entries) :
    (∃ chain, resolveTenantChain key graph registry = some (.ok (some chain)) ∧
      IsTenantChain registry graph (Listed registry graph) key chain ∧
      ∀ chain', IsTenantChain registry graph (Listed registry graph) key chain' →
        chain.hops.length ≤ chain'.hops.length) ∨
    (resolveTenantChain key graph registry = some (.ok none) ∧
      ∀ chain, ¬ IsTenantChain registry graph (Listed registry graph) key chain) := by
  obtain ⟨rootEntry, hrootEntry, htable⟩ := h.rootEntry
  have hroot : graph.root = some root.key := by
    rw [h.describes.root, h.head]
    rfl
  have hsingle := h.singleTargets
  have hanswers := resolveTenantChain_answers hkey hroot hrootEntry
    ((mem_entries_iff _).mp hentry) (htable ▸ hsingle)
  rw [← htable] at hanswers
  have hstart : ¬ EndsAt (chainScope graph registry root.key root.tableName) key := by
    obtain ⟨htenant, _, hdirect, _⟩ := h.describes.indirectlyScoped key hkey
    have hlevel : key ∉ graph.levels.map Db.Client.TenantLevel.key := fun hmem =>
      htenant ((h.describes.levels.tenants key).mp hmem)
    rintro ⟨e, _, heq | ⟨hmem, _⟩⟩
    · exact hlevel (heq ▸ h.root_key_mem)
    · simp only [chainScope, mem_append, mem_singleton] at hmem
      rcases hmem with (hmem | heq) | hmem
      · exact hdirect hmem
      · exact hlevel (heq ▸ h.root_key_mem)
      · exact hlevel hmem
  have hlength := edges_length registry graph root.key root.tableName
  rcases Frontier.seek_shortest (columnAt_isSome _) registry.nodup h.edges_closed
    (mem_map.mpr ⟨_, hentry, rfl⟩) hstart
    (show _ + 1 < relationCount registry + 2 by omega) with
    ⟨hops, tenantColumn, hseek, hshort⟩ | ⟨hseek, hnone⟩
  · rw [hseek] at hanswers
    obtain ⟨chain, hparts, hresult⟩ := hanswers
    refine .inl ⟨chain, hresult, h.chain_of_found hentry hkey hparts hshort, ?_⟩
    intro chain' hchain'
    obtain ⟨last, hpath, hends⟩ := h.path_of_chain hchain'
    rw [hparts.1]
    exact hshort.2 _ _ hpath hends
  · rw [hseek] at hanswers
    refine .inr ⟨hanswers, fun chain hchain => ?_⟩
    obtain ⟨last, hpath, hends⟩ := h.path_of_chain hchain
    exact hnone _ _ hpath hends

end Searchable

end Search

/-! ### Registries in which every chain is listed -/

section Own

variable {graph : TenantGraph} {root : Db.Client.TenantLevel} {key : String}
  {entry : ModelRegistryEntry}

theorem tableNameToKey_own (hown : OwnTables registry) {model : Model}
    (hm : model ∈ registry.entries) :
    tableNameToKey registry model.2.table.name = some model.1 := by
  have hfst : ((registry.entries.map fun model => (model.2.table.name, model.1)).map
      Prod.fst).Nodup := by
    rw [map_map]
    exact hown
  rw [tableNameToKey, lookupLast_of_nodup hfst, ← Option.mem_def]
  exact (mem_iff_lookup hfst).mp (mem_map_of_mem hm)

/-- A model that refers to a scoped model is one, unless it is shared. -/
theorem listed_of_refers (h : Searchable registry graph root) (hown : OwnTables registry)
    {model next : Model} {rel : String × RelationDef} (hm : model ∈ registry.entries)
    (hshared : NotShared model) (hrel : rel ∈ model.2.relations.entries)
    (hone : rel.2.type = .one) (hnext : next ∈ registry.entries) (hopen : NotShared next)
    (htarget : rel.2.target = next.2.table.name)
    (hlisted : next.1 ∈ graph.levels.map Db.Client.TenantLevel.key ∨
      next.1 ∈ graph.directlyScoped ∨ next.1 ∈ graph.indirectlyScoped) :
    model.1 ∈ graph.levels.map Db.Client.TenantLevel.key ∨ model.1 ∈ graph.directlyScoped ∨
      model.1 ∈ graph.indirectlyScoped := by
  rw [h.describes.levels.tenants, or_iff_not_imp_left, or_iff_not_imp_left]
  intro htenant hdirect
  refine h.describes.connected hown model.1 ⟨htenant, ?_, hdirect, ?_⟩
  · rintro ⟨e, he, hs⟩
    rw [NotShared, entry_unique hm he, hs] at hshared
    cases hshared
  · have hstep : Refers registry model.1 next.1 :=
      ⟨model.2, next.2, rel, hm, hnext, hopen, hrel, hone, htarget⟩
    rw [h.describes.levels.tenants, ← or_assoc] at hlisted
    rcases hlisted with hgoal | hindirect
    · exact ⟨next.1, .single hstep, hgoal⟩
    · obtain ⟨_, _, _, key', hpath, hgoal⟩ := h.describes.indirectlyScoped next.1 hindirect
      exact ⟨key', .head hstep hpath, hgoal⟩

theorem notShared_of_indirect (h : Searchable registry graph root)
    (hkey : key ∈ graph.indirectlyScoped) (hentry : (key, entry) ∈ registry.entries) :
    NotShared (key, entry) := by
  obtain ⟨_, hshared, _⟩ := h.describes.indirectlyScoped key hkey
  by_contra hs
  exact hshared ⟨entry, hentry, by simpa [NotShared] using hs⟩

/-- The models on the way to a scoped model are listed. -/
theorem Leads.listed (h : Searchable registry graph root) (hown : OwnTables registry)
    (hkeyed : Keyed registry) (hkey : key ∈ graph.indirectlyScoped)
    (hentry : (key, entry) ∈ registry.entries) {hops : List TenantChainHop} {model : Model}
    (hleads : Leads registry NotShared (key, entry) hops model)
    (hlisted : model.1 ∈ graph.levels.map Db.Client.TenantLevel.key ∨
      model.1 ∈ graph.directlyScoped ∨ model.1 ∈ graph.indirectlyScoped) :
    Leads registry (Listed registry graph) (key, entry) hops model := by
  induction hleads with
  | here => exact .here
  | @step hops model next rel fk pk hleads hrel hone hfk hnext htarget hpass hpk ih =>
    have hm := hleads.mem hentry
    have hshared : NotShared model := by
      cases hleads with
      | here => exact notShared_of_indirect h hkey hentry
      | step _ _ _ _ _ _ hpass' => exact hpass'
    refine .step (ih ?_) hrel hone hfk hnext htarget ?_ hpk
    · exact listed_of_refers h hown hm hshared hrel hone hnext hpass htarget hlisted
    · exact ⟨hpass, tableNameToKey_own hown hnext, (hkeyed next hnext).1, hlisted⟩

theorem IsTenantChain.listed (h : Searchable registry graph root) (hown : OwnTables registry)
    (hkeyed : Keyed registry) (hkey : key ∈ graph.indirectlyScoped) {chain : TenantChain}
    (hchain : IsTenantChain registry graph NotShared key chain) :
    IsTenantChain registry graph (Listed registry graph) key chain := by
  obtain ⟨e, last, he, hleads, root', hroot', hfk⟩ := hchain
  obtain rfl : root = root' := Option.some.inj (h.head.symm.trans hroot')
  obtain ⟨rel, hrel, hone, _, htarget⟩ := hfk
  obtain ⟨rootEntry, hrootEntry, htable⟩ := h.rootEntry
  have hrootMem : (root.key, rootEntry) ∈ registry.entries :=
    (mem_entries_iff _).mpr hrootEntry
  have hrootOpen : NotShared (root.key, rootEntry) := by
    obtain ⟨e', he', _, hs⟩ := (h.describes.levels.tenants root.key).mp h.root_key_mem
    rwa [NotShared, entry_unique hrootMem he']
  have hshared : NotShared last := by
    generalize chain.hops = hops at hleads
    cases hleads with
    | here => exact notShared_of_indirect h hkey he
    | step _ _ _ _ _ _ hpass => exact hpass
  have hlisted := listed_of_refers h hown (hleads.mem he) hshared hrel hone hrootMem hrootOpen
    (htarget.trans htable) (.inl h.root_key_mem)
  exact ⟨e, last, he, hleads.listed h hown hkeyed hkey he hlisted, root, h.head, rel, hrel, hone,
    by assumption, htarget⟩

/-- Hops lead from the model to one with a foreign key to the root. -/
def HasWay (registry : ModelRegistry) (root : Db.Client.TenantLevel) (model : Model) : Prop :=
  ∃ hops last fk, Leads registry NotShared model hops last ∧ HasKeyTo last root.tableName fk

theorem HasWay.head (hkeys : SingleKeys registry) (hkeyed : Keyed registry) {model next : Model}
    {rel : String × RelationDef} (hm : model ∈ registry.entries)
    (hrel : rel ∈ model.2.relations.entries) (hone : rel.2.type = .one)
    (hnext : next ∈ registry.entries) (htarget : rel.2.target = next.2.table.name)
    (hopen : NotShared next) (h : HasWay registry root next) : HasWay registry root model := by
  obtain ⟨hops, last, fk, hleads, hfk⟩ := h
  obtain ⟨fk', hkey⟩ := Option.ne_none_iff_exists'.mp ((hkeyed model hm).2 rel hrel hone)
  have hpk := resolvePrimaryKey_single rel.2.target
    (hkeys model hm rel hrel hone next hnext htarget)
  exact ⟨_, last, fk, .head hrel hone hkey hnext htarget hopen hpk hleads, hfk⟩

theorem HasWay.of_ref (hkeyed : Keyed registry) {model : Model} {rel : String × RelationDef}
    (hm : model ∈ registry.entries) (hrel : rel ∈ model.2.relations.entries)
    (hone : rel.2.type = .one) (htarget : rel.2.target = root.tableName) :
    HasWay registry root model := by
  obtain ⟨fk, hkey⟩ := Option.ne_none_iff_exists'.mp ((hkeyed model hm).2 rel hrel hone)
  exact ⟨[], model, fk, .here, rel, hrel, hone, hkey, htarget⟩

/-- The levels below the root lead up to it. -/
theorem levels_hasWay (hkeys : SingleKeys registry) (hkeyed : Keyed registry)
    {levels : List Db.Client.TenantLevel} (hchain : levels.IsChain (Below registry))
    (htables : ∀ level ∈ levels, ∃ e, (level.key, e) ∈ registry.entries ∧
      level.tableName = e.table.name ∧ e.table.shared = false)
    (hhead : ∀ level ∈ levels.head?, level = root ∨ ∀ e, (level.key, e) ∈ registry.entries →
      HasWay registry root (level.key, e)) :
    ∀ level ∈ levels, level = root ∨ ∀ e, (level.key, e) ∈ registry.entries →
      HasWay registry root (level.key, e) := by
  induction levels with
  | nil => exact fun _ h => nomatch h
  | cons level levels ih =>
    have hfirst := hhead level rfl
    refine forall_mem_cons.mpr ⟨hfirst, ih hchain.of_cons
      (fun l hl => htables l (mem_cons_of_mem _ hl)) ?_⟩
    intro next hnext
    cases levels with
    | nil => cases hnext
    | cons next' levels =>
      obtain rfl : next' = next := Option.some.inj hnext
      obtain ⟨_, fk, e, rel, _, he, hrel, hone, _, htarget⟩ := hchain.rel
      refine .inr fun e' he' => ?_
      rw [entry_unique he' he]
      rcases hfirst with rfl | hway
      · exact .of_ref hkeyed he hrel hone htarget
      · obtain ⟨parent, hparent, hname, hopen⟩ := htables level mem_cons_self
        exact .head hkeys hkeyed he hrel hone hparent (htarget.trans hname) hopen
          (hway parent hparent)

theorem hasWay_of_indirect (h : Searchable registry graph root) (hkeyed : Keyed registry)
    (hkey : key ∈ graph.indirectlyScoped) (hentry : (key, entry) ∈ registry.entries) :
    HasWay registry root (key, entry) := by
  have hlevels : ∀ level ∈ graph.levels, level = root ∨ ∀ e, (level.key, e) ∈ registry.entries →
      HasWay registry root (level.key, e) := by
    refine levels_hasWay h.singleKeys hkeyed h.describes.levels.below ?_ ?_
    · intro level hlevel
      obtain ⟨e, he, hname⟩ := h.describes.levels.tables level hlevel
      obtain ⟨e', he', _, hs⟩ :=
        (h.describes.levels.tenants level.key).mp (mem_map_of_mem hlevel)
      exact ⟨e, he, hname, entry_unique he' he ▸ hs⟩
    · intro level hlevel
      exact .inl (Option.some.inj (hlevel.symm.trans h.head))
  obtain ⟨key', hpath, hgoal⟩ := (h.describes.indirectlyScoped key hkey).2.2.2
  have hend : key' = root.key ∨ ∀ e, (key', e) ∈ registry.entries →
      HasWay registry root (key', e) := by
    rcases hgoal with htenant | hdirect
    · obtain ⟨level, hlevel, rfl⟩ := mem_map.mp ((h.describes.levels.tenants key').mpr htenant)
      exact (hlevels level hlevel).imp_left (congrArg _)
    · obtain ⟨e, he, _, _, root', hroot', hrefs⟩ := (h.describes.directlyScoped key').mp hdirect
      obtain rfl : root = root' := Option.some.inj (h.head.symm.trans hroot')
      obtain ⟨name, hname⟩ := length_eq_one_iff.mp hrefs
      have hmem : name ∈ refsTo e root.tableName := hname ▸ mem_singleton_self name
      obtain ⟨rel, hrel, _⟩ := mem_map.mp hmem
      obtain ⟨hrel, htest⟩ := mem_filter.mp hrel
      rw [Bool.and_eq_true, beq_iff_eq, beq_iff_eq] at htest
      refine .inr fun e' he' => ?_
      rw [entry_unique he' he]
      exact .of_ref hkeyed he hrel htest.1 htest.2
  have hstep : ∀ {a b : String}, Refers registry a b →
      (b = root.key ∨ ∀ e, (b, e) ∈ registry.entries → HasWay registry root (b, e)) →
      ∀ e, (a, e) ∈ registry.entries → HasWay registry root (a, e) := by
    rintro a b ⟨e, e', rel, he, he', hopen, hrel, hone, htarget⟩ hb e₁ he₁
    rw [entry_unique he₁ he]
    rcases hb with rfl | hway
    · obtain ⟨rootEntry, hrootEntry, htable⟩ := h.rootEntry
      have hsame := entry_unique he' ((mem_entries_iff _).mpr hrootEntry)
      exact .of_ref hkeyed he hrel hone (by rw [htarget, htable, hsame])
    · exact .head h.singleKeys hkeyed he hrel hone he' htarget hopen (hway e' he')
  have hall : ∀ e, (key, e) ∈ registry.entries → HasWay registry root (key, e) := by
    clear hentry hkey
    induction hpath using Relation.TransGen.head_induction_on with
    | single href => exact hstep href hend
    | head href _ ih => exact hstep href (.inr ih)
  exact hall entry hentry

/-- A chain through listed models is one of the shortest there are. -/
theorem listedWay_of_own (h : Searchable registry graph root) (hown : OwnTables registry)
    (hkeyed : Keyed registry) (hkey : key ∈ graph.indirectlyScoped)
    (hentry : (key, entry) ∈ registry.entries) : ListedWay registry graph key := by
  obtain ⟨hops, last, fk, hleads, hfk⟩ := hasWay_of_indirect h hkeyed hkey hentry
  have hexists : ∃ chain, IsTenantChain registry graph NotShared key chain := by
    cases hops with
    | nil =>
      obtain rfl := hleads.eq_start rfl
      obtain ⟨rel, hrel, hone, _, htarget⟩ := hfk
      exact absurd htarget (h.noRefs key entry hkey hentry rel hrel hone)
    | cons hop hops =>
      exact ⟨⟨hop, hops, fk⟩, entry, last, hentry, hleads, root, h.head, hfk⟩
  obtain ⟨chain, hchain, hleast⟩ :=
    (measure fun chain : TenantChain => chain.hops.length).wf.has_min
      {chain | IsTenantChain registry graph NotShared key chain} hexists
  exact ⟨chain, hchain.listed h hown hkeyed hkey, hchain,
    fun chain' hchain' => Nat.not_lt.mp (hleast chain' hchain')⟩

end Own

/-- The chain is found, and is a shortest one, exactly when a shortest one
leads through listed models; it always is when no two models share a
table, the models have names and the relations foreign keys. -/
theorem resolveTenantChain_shortest (registry : ModelRegistry) (hkeys : SingleKeys registry)
    (graph : TenantGraph) (hgraph : computeTenantGraph registry = .ok graph) (key : String)
    (hkey : key ∈ graph.indirectlyScoped) :
    (∃ result, resolveTenantChain key graph registry = some (.ok result)) ∧
    ((∃ chain, resolveTenantChain key graph registry = some (.ok (some chain)) ∧
        IsShortestChain registry graph key chain) ↔ ListedWay registry graph key) ∧
    (OwnTables registry → Keyed registry → ListedWay registry graph key) := by
  obtain ⟨root, h⟩ := searchable_of_computed hkeys hgraph hkey
  obtain ⟨_, _, _, _, hpath, _⟩ := h.describes.indirectlyScoped key hkey
  obtain ⟨entry, hentry⟩ : ∃ e, (key, e) ∈ registry.entries := by
    obtain ⟨_, ⟨e, _, _, he, _⟩, _⟩ := Relation.TransGen.head'_iff.mp hpath
    exact ⟨e, he⟩
  refine ⟨?_, ⟨?_, ?_⟩, fun hown hkeyed => listedWay_of_own h hown hkeyed hkey hentry⟩
  · rcases h.resolveTenantChain_listed hkey hentry with ⟨chain, hresult, _⟩ | ⟨hresult, _⟩
    · exact ⟨_, hresult⟩
    · exact ⟨_, hresult⟩
  · rintro ⟨chain, hchain, hshortest⟩
    rcases h.resolveTenantChain_listed hkey hentry with ⟨chain', hresult, hlisted, _⟩ | ⟨hresult, _⟩
    · rw [hchain] at hresult
      cases hresult
      exact ⟨chain, hlisted, hshortest⟩
    · rw [hchain] at hresult
      cases hresult
  · rintro ⟨chain, hlisted, hshortest⟩
    rcases h.resolveTenantChain_listed hkey hentry with
      ⟨chain', hresult, hlisted', hleast⟩ | ⟨_, hnone⟩
    · refine ⟨chain', hresult, ?_, fun other hother => ?_⟩
      · obtain ⟨e, last, he, hleads, hrest⟩ := hlisted'
        exact ⟨e, last, he, hleads.mono fun _ hmodel => hmodel.notShared, hrest⟩
      · exact (hleast chain hlisted).trans (hshortest.2 other hother)
    · exact absurd hlisted (hnone chain)

theorem projectApp_keyed : Keyed projectApp := by
  have hall : ∀ model ∈ projectApp.entries, model.1 ≠ "" ∧
      ∀ rel ∈ model.2.relations.entries, rel.2.key? ≠ none := by
    decide +kernel
  intro model hmodel
  obtain ⟨hname, hkeys⟩ := hall model hmodel
  exact ⟨hname, fun rel hrel _ => hkeys rel hrel⟩

theorem singleKeys_of_tables {registry : ModelRegistry}
    (h : ∀ target ∈ registry.entries, (getPrimaryKeyColumns target.2.table.toTableDef).length ≤ 1) :
    SingleKeys registry :=
  fun _ _ _ _ _ target htarget _ => h target htarget

/-- The tasks of the project app get a chain, and a shortest one. -/
theorem tasks_chain : ∃ chain,
    resolveTenantChain "tasks" projectGraph projectApp = some (.ok (some chain)) ∧
      IsShortestChain projectApp projectGraph "tasks" chain := by
  have hown : OwnTables projectApp := by
    unfold OwnTables
    decide +kernel
  obtain ⟨_, hiff, hway⟩ := resolveTenantChain_shortest projectApp
    (singleKeys_of_tables (by decide +kernel)) projectGraph projectApp_graph "tasks" (by decide)
  exact hiff.mpr (hway hown projectApp_keyed)

/-- Two models of the table of projects, of which the last refers to
nothing. -/
def archived : ModelRegistry :=
  .ofList [accountsModel, ("projects", modelOf "projects" false false [("accounts", "accountId")]),
    ("archive", modelOf "projects" false false []),
    ("tasks", modelOf "tasks" false false [("projects", "projectId")])]

def archivedGraph : TenantGraph where
  root := some "accounts"
  levels := [⟨"accounts", "accounts", none, none, 0⟩]
  directlyScoped := ["projects"]
  indirectlyScoped := ["tasks"]
  shared := []

/-- Tasks are indirectly scoped through the directly scoped projects, but
the name of their table stands for the other model: there is no chain. -/
theorem archived_no_chain : ¬ ∀ registry graph, SingleKeys registry →
    computeTenantGraph registry = .ok graph → ∀ key ∈ graph.indirectlyScoped,
      ∃ chain, resolveTenantChain key graph registry = some (.ok (some chain)) ∧
        IsShortestChain registry graph key chain := by
  intro h
  have hgraph : computeTenantGraph archived = .ok archivedGraph := by decide +kernel
  have hnull : resolveTenantChain "tasks" archivedGraph archived = some (.ok none) := by
    decide +kernel
  obtain ⟨chain, hchain, _⟩ := h archived archivedGraph
    (singleKeys_of_tables (by decide +kernel)) hgraph "tasks" (by decide)
  rw [hnull] at hchain
  cases hchain

end Vertz.Proofs
