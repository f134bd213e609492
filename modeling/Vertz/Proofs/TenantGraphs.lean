import Mathlib.Data.List.Chain
import Mathlib.Data.List.Perm.Subperm
import Vertz.Lib.Except
import Vertz.Db.Client.TenantGraph

/-!
# `Vertz.Proofs.TenantGraphs`: what a tenant graph says

`Describes` says what a graph has to do with its registry: its levels are
a chain of the tenant models from the root, and its lists are the models
that are scoped in each way. `computeTenantGraph_describes` proves it for
all registries; only the list of the indirectly scoped models leaves some
out when models share a table. Tenant levels are never in the other lists,
and no chain of relations goes through a shared table.

When no two models share a table and no tenant model refers to several
tenant tables, the graph does not depend on the order of the models or of
their relations (`computeTenantGraph_correct`). `tenantGraph_misses` has a registry for
each of these restrictions.
-/

namespace Vertz.Proofs

open Vertz.Lib
open Vertz.Db.Client List Record

/-! ### Registries and graphs -/

variable {registry : ModelRegistry}

/-- The model is a tenant level. -/
def IsTenant (registry : ModelRegistry) (key : String) : Prop :=
  ∃ e, (key, e) ∈ registry.entries ∧ e.table.tenant = true ∧ e.table.shared = false

def IsShared (registry : ModelRegistry) (key : String) : Prop :=
  ∃ e, (key, e) ∈ registry.entries ∧ e.table.shared = true

/-- No two models have the same table. -/
def OwnTables (registry : ModelRegistry) : Prop :=
  (registry.entries.map fun model => model.2.table.name).Nodup

/-- The relation is one that a tenant level can be found through. -/
def TenantRef (registry : ModelRegistry) (rel : RelationDef) : Prop :=
  rel.type = .one ∧ rel.key? ≠ none ∧
    ∃ key e, (key, e) ∈ registry.entries ∧ e.table.tenant = true ∧ e.table.shared = false ∧
      e.table.name = rel.target

/-- No tenant model refers to several tenant tables. -/
def OneParent (registry : ModelRegistry) : Prop :=
  ∀ key e, (key, e) ∈ registry.entries → e.table.tenant = true → e.table.shared = false →
    ∀ rel ∈ e.relations.entries, ∀ rel' ∈ e.relations.entries,
      TenantRef registry rel.2 → TenantRef registry rel'.2 → rel.2.target = rel'.2.target

/-- A `ref.one` relation of one model leads to the table of the other,
which is not shared. -/
def Refers (registry : ModelRegistry) (key key' : String) : Prop :=
  ∃ e e' rel, (key, e) ∈ registry.entries ∧ (key', e') ∈ registry.entries ∧
    e'.table.shared = false ∧ rel ∈ e.relations.entries ∧ rel.2.type = .one ∧
    rel.2.target = e'.table.name

/-- A level below another: its parent is the other, which a foreign key of
its model refers to. -/
def Below (registry : ModelRegistry) (parent level : TenantLevel) : Prop :=
  level.parentKey = some parent.key ∧
    ∃ fk e rel, level.parentFk = some fk ∧ (level.key, e) ∈ registry.entries ∧
      rel ∈ e.relations.entries ∧ rel.2.type = .one ∧ rel.2.key? = some fk ∧
      rel.2.target = parent.tableName

/-- The levels are the tenant models in a chain from a root. -/
structure TenantChainOf (registry : ModelRegistry) (levels : List TenantLevel) : Prop where
  nodup : (levels.map TenantLevel.key).Nodup
  tenants : ∀ key, key ∈ levels.map TenantLevel.key ↔ IsTenant registry key
  tables : ∀ level ∈ levels, ∃ e, (level.key, e) ∈ registry.entries ∧
    level.tableName = e.table.name
  root : ∀ level ∈ levels.head?, level.parentKey = none ∧ level.parentFk = none
  below : levels.IsChain (Below registry)
  depths : levels.map TenantLevel.depth = List.range levels.length
  bounded : levels.length ≤ 4

/-- The model is none of tenant, shared and directly scoped, and relations
lead from it to a tenant level or to a directly scoped model. -/
def Connected (registry : ModelRegistry) (graph : TenantGraph) (key : String) : Prop :=
  ¬ IsTenant registry key ∧ ¬ IsShared registry key ∧ key ∉ graph.directlyScoped ∧
    ∃ key', Relation.TransGen (Refers registry) key key' ∧
      (IsTenant registry key' ∨ key' ∈ graph.directlyScoped)

/-- What a graph says about its registry. All connected models are
indirectly scoped when no two models share a table. -/
structure Describes (registry : ModelRegistry) (graph : TenantGraph) : Prop where
  root : graph.root = graph.levels.head?.map TenantLevel.key
  levels : TenantChainOf registry graph.levels
  shared : ∀ key, key ∈ graph.shared ↔ IsShared registry key
  directlyScoped : ∀ key, key ∈ graph.directlyScoped ↔
    ∃ e, (key, e) ∈ registry.entries ∧ ¬ IsTenant registry key ∧ ¬ IsShared registry key ∧
      ∃ root ∈ graph.levels.head?, (refsTo e root.tableName).length = 1
  indirectlyScoped : ∀ key, key ∈ graph.indirectlyScoped → Connected registry graph key
  connected : OwnTables registry → ∀ key, Connected registry graph key →
    key ∈ graph.indirectlyScoped

/-! ### Marked models -/

def isTenantModel (model : Model) : Bool := model.2.table.tenant && !model.2.table.shared

def tenantModels (models : List Model) : List Model := models.filter isTenantModel

def sharedKeys (models : List Model) : List String :=
  (models.filter fun model => model.2.table.shared).map Prod.fst

/-- No table carries both markers. -/
def MarkedOnce (models : List Model) : Prop :=
  ∀ model ∈ models, ¬ (model.2.table.shared = true ∧ model.2.table.tenant = true)

theorem markedModels_ok_iff (models : List Model) (found : List Model × List String) :
    markedModels models = .ok found ↔
      MarkedOnce models ∧ found = (tenantModels models, sharedKeys models) := by
  induction models generalizing found with
  | nil =>
    show Except.ok ([], []) = Except.ok found ↔ MarkedOnce [] ∧ found = ([], [])
    rw [Except.ok.injEq, eq_comm]
    exact (and_iff_right fun _ h => nomatch h).symm
  | cons model models ih =>
    rw [markedModels]
    by_cases hboth : model.2.table.shared = true ∧ model.2.table.tenant = true
    · rw [if_pos hboth]
      simp [MarkedOnce, hboth]
    · have honce : MarkedOnce (model :: models) ↔ MarkedOnce models :=
        forall_mem_cons.trans (and_iff_right hboth)
      rw [if_neg hboth, honce]
      constructor
      · intro h
        obtain ⟨rest, hrest, rfl⟩ := map_eq_ok h
        obtain ⟨hmarked, rfl⟩ := (ih rest).mp hrest
        refine ⟨hmarked, ?_⟩
        cases hs : model.2.table.shared <;> cases ht : model.2.table.tenant <;>
          simp_all [tenantModels, sharedKeys, isTenantModel]
      · rintro ⟨hmarked, rfl⟩
        rw [(ih _).mpr ⟨hmarked, rfl⟩]
        cases hs : model.2.table.shared <;> cases ht : model.2.table.tenant <;>
          simp_all [tenantModels, sharedKeys, isTenantModel, Except.map]

variable {key : String}

theorem mem_tenantKeys :
    key ∈ (tenantModels registry.entries).map Prod.fst ↔ IsTenant registry key := by
  simp [tenantModels, isTenantModel, IsTenant, and_assoc]

theorem mem_sharedKeys : key ∈ sharedKeys registry.entries ↔ IsShared registry key := by
  simp [sharedKeys, IsShared]

/-! ### Directly scoped models -/

/-- No model that is not skipped refers to the root more than once. -/
def OneRef (root : TenantLevel) (skipped : List String) (models : List Model) : Prop :=
  ∀ model ∈ models, model.1 ∉ skipped → (refsTo model.2 root.tableName).length ≤ 1

theorem findDirectlyScoped_ok_iff (root : TenantLevel) (skipped : List String)
    (models : List Model) (found : List String) :
    findDirectlyScoped root skipped models = .ok found ↔
      OneRef root skipped models ∧ found = (models.filter fun model =>
        model.1 ∉ skipped ∧ (refsTo model.2 root.tableName).length = 1).map Prod.fst := by
  induction models generalizing found with
  | nil =>
    show Except.ok [] = Except.ok found ↔ OneRef root skipped [] ∧ found = []
    rw [Except.ok.injEq, eq_comm]
    exact (and_iff_right fun _ h => nomatch h).symm
  | cons model models ih =>
    obtain ⟨key, entry⟩ := model
    rw [findDirectlyScoped]
    by_cases hskip : key ∈ skipped
    · rw [if_pos hskip, ih]
      simp [OneRef, hskip]
    · rw [if_neg hskip]
      split
      · next hrefs =>
          rw [ih]
          simp [OneRef, hrefs]
      · next ref hrefs =>
          simp only [OneRef, forall_mem_cons, hrefs]
          constructor
          · intro h
            obtain ⟨rest, hrest, rfl⟩ := map_eq_ok h
            obtain ⟨hone, rfl⟩ := (ih rest).mp hrest
            exact ⟨⟨fun _ => Nat.le_refl 1, hone⟩, by simp [hskip, hrefs]⟩
          · rintro ⟨⟨_, hone⟩, rfl⟩
            rw [(ih _).mpr ⟨hone, rfl⟩]
            simp [hskip, hrefs, Except.map]
      · next hnil hsingle =>
          constructor
          · intro h
            cases h
          · rintro ⟨hone, _⟩
            have hle := hone (key, entry) mem_cons_self hskip
            cases hrefs : refsTo entry root.tableName with
            | nil => exact absurd hrefs hnil
            | cons ref refs =>
              cases refs with
              | nil => exact absurd hrefs (hsingle ref)
              | cons ref' refs =>
                rw [hrefs, length_cons, length_cons] at hle
                omega

/-! ### The tenant levels -/

theorem entry_unique {e e' : ModelRegistryEntry} (h : (key, e) ∈ registry.entries)
    (h' : (key, e') ∈ registry.entries) : e = e' := by
  rw [mem_entries_iff] at h h'
  exact Option.some.inj (h.symm.trans h')

theorem tableNameToKey_some {name key : String} (h : tableNameToKey registry name = some key) :
    ∃ e, (key, e) ∈ registry.entries ∧ e.table.name = name := by
  obtain ⟨⟨key', e⟩, hmem, heq⟩ := mem_map.mp (mem_of_lookupLast h)
  cases heq
  exact ⟨e, hmem, rfl⟩

variable {tenants : List Model}

theorem parentThrough_some {rel : RelationDef} {parent : String × String}
    (h : parentThrough registry tenants rel = some parent) :
    rel.type = .one ∧ rel.key? = some parent.2 ∧
      rel.target ∈ tenants.map (fun model => model.2.table.name) ∧
      tableNameToKey registry rel.target = some parent.1 := by
  unfold parentThrough at h
  split at h
  · next fk hone hfk =>
      split at h
      · next hname =>
          split at h
          · next targetKey htarget =>
              split at h
              · cases h
                exact ⟨hone, hfk, hname, htarget⟩
              · cases h
          · cases h
      · cases h
  · cases h

theorem parentLink_some {model : Model} {link : ParentLink}
    (h : parentLink registry tenants model = some link) :
    link.key = model.1 ∧ link.tableName = model.2.table.name ∧ ∃ rel ∈ model.2.relations.entries,
        parentThrough registry tenants rel.2 = some (link.parentKey, link.fk) := by
  obtain ⟨parent, hparent, rfl⟩ := Option.map_eq_some_iff.mp h
  obtain ⟨rel, hrel, hthrough⟩ := exists_of_findSome?_eq_some hparent
  exact ⟨rfl, rfl, rel, hrel, hthrough⟩

theorem parentMap_keys (registry : ModelRegistry) (tenants models : List Model) :
    (models.filterMap (parentLink registry tenants)).map ParentLink.key =
      (models.filter fun model => (parentLink registry tenants model).isSome).map Prod.fst := by
  induction models with
  | nil => rfl
  | cons model models ih =>
    cases hlink : parentLink registry tenants model with
    | none => rw [filterMap_cons_none hlink, filter_cons_of_neg (by simp [hlink]), ih]
    | some link =>
      rw [filterMap_cons_some hlink, filter_cons_of_pos (by simp [hlink]),
        map_cons, map_cons, ih, (parentLink_some hlink).1]

section Walk

variable {parents : List ParentLink}

theorem mem_walkLevels {fuel depth : ℕ} {current : String} {level : TenantLevel}
    (h : level ∈ walkLevels parents fuel current depth) :
    ∃ link ∈ parents, level.key = link.key ∧ level.tableName = link.tableName ∧
      level.parentFk = some link.fk ∧ level.parentKey = some link.parentKey := by
  induction fuel generalizing current depth with
  | zero => cases h
  | succ fuel ih =>
    rw [walkLevels] at h
    split at h
    · cases h
    · next child hchild =>
        rcases mem_cons.mp h with rfl | h
        · have hparent : child.parentKey = current := by simpa using find?_some hchild
          exact ⟨child, mem_of_find?_eq_some hchild, rfl, rfl, rfl, by rw [hparent]⟩
        · exact ih h

theorem walkLevels_chain (fuel depth : ℕ) (prev : TenantLevel) :
    (prev :: walkLevels parents fuel prev.key depth).IsChain fun parent level =>
      level.parentKey = some parent.key := by
  induction fuel generalizing prev depth with
  | zero => exact .singleton prev
  | succ fuel ih =>
    rw [walkLevels]
    split
    · exact .singleton prev
    · exact .cons_cons rfl (ih _ _)

theorem walkLevels_depths (fuel depth : ℕ) (current : String) :
    (walkLevels parents fuel current depth).map TenantLevel.depth =
      List.range' depth (walkLevels parents fuel current depth).length := by
  induction fuel generalizing current depth with
  | zero => rfl
  | succ fuel ih =>
    rw [walkLevels]
    split
    · rfl
    · rw [map_cons, length_cons, range'_succ, ih]

/-- The parent of a level is where the walk started or a level. -/
theorem parent_of_mem {fuel depth : ℕ} {current parent : String} {level : TenantLevel}
    (h : level ∈ walkLevels parents fuel current depth) (hparent : level.parentKey = some parent) :
    parent = current ∨ parent ∈ (walkLevels parents fuel current depth).map TenantLevel.key := by
  induction fuel generalizing current depth with
  | zero => cases h
  | succ fuel ih =>
    rw [walkLevels] at h ⊢
    split at h
    · cases h
    · next child hchild =>
        rcases mem_cons.mp h with rfl | h
        · exact .inl (Option.some.inj hparent).symm
        · rcases ih h with rfl | hmem
          · exact .inr mem_cons_self
          · exact .inr (mem_cons_of_mem _ hmem)

/-- A walk that does not come back to its start meets no key twice. -/
theorem walkLevels_nodup (hkeys : (parents.map ParentLink.key).Nodup) (fuel depth : ℕ)
    {current : String}
    (hstart : current ∉ (walkLevels parents fuel current depth).map TenantLevel.key) :
    ((walkLevels parents fuel current depth).map TenantLevel.key).Nodup := by
  induction fuel generalizing current depth with
  | zero => exact nodup_nil
  | succ fuel ih =>
    rw [walkLevels] at hstart ⊢
    split at hstart
    · exact nodup_nil
    · next child hchild =>
        have hparent : child.parentKey = current := by simpa using find?_some hchild
        rw [map_cons, mem_cons, not_or] at hstart
        obtain ⟨hne, hrest⟩ := hstart
        have hfresh : child.key ∉
            (walkLevels parents fuel child.key (depth + 1)).map TenantLevel.key := by
          intro hmem
          obtain ⟨level, hlevel, hkey⟩ := mem_map.mp hmem
          obtain ⟨link, hlink, hlinkKey, _, _, hlinkParent⟩ := mem_walkLevels hlevel
          -- a key has one link, so the walk would pass its start
          have hsame : link = child :=
            inj_on_of_nodup_map hkeys hlink (mem_of_find?_eq_some hchild)
              (hlinkKey.symm.trans hkey)
          rw [hsame, hparent] at hlinkParent
          rcases parent_of_mem hlevel hlinkParent with heq | hmem
          · exact hne heq
          · exact hrest hmem
        rw [map_cons, nodup_cons]
        exact ⟨hfresh, ih _ hfresh⟩

end Walk

/-- The tenant models of a registry, whose keys are distinct. -/
structure TenantsOf (registry : ModelRegistry) (tenants : List Model) : Prop where
  mem : ∀ model ∈ tenants, model ∈ registry.entries
  keys : (tenants.map Prod.fst).Nodup

theorem tenantModels_of (registry : ModelRegistry) :
    TenantsOf registry (tenantModels registry.entries) where
  mem := fun _ hmodel => (mem_filter.mp hmodel).1
  keys := registry.nodup.sublist (filter_sublist.map Prod.fst)

/-- What the levels that are resolved look like: a lone tenant model, or a
root without a parent and a walk from it that meets every tenant. -/
theorem resolveTenantLevels_ok {levels : List TenantLevel}
    (h : resolveTenantLevels registry tenants = .ok levels) :
    (∃ model, tenants = [model] ∧ levels = [rootLevel model]) ∨
    ∃ root ∈ tenants, root.1 ∉ (parentMap registry tenants).map ParentLink.key ∧
      levels = rootLevel root ::
        walkLevels (parentMap registry tenants) tenants.length root.1 1 ∧
      levels.length = tenants.length ∧ levels.length ≤ 4 := by
  unfold resolveTenantLevels at h
  split at h
  · next model =>
      cases h
      exact .inl ⟨model, rfl, rfl⟩
  · dsimp only at h
    split at h
    · next root hroots =>
        have hroot : root ∈ tenants.filter fun model =>
            model.1 ∉ (parentMap registry tenants).map ParentLink.key := by
          rw [hroots]
          exact mem_cons_self
        rw [mem_filter] at hroot
        split at h
        · cases h
        · split at h
          · cases h
          · next hlength =>
              split at h
              · cases h
              · next hdepth =>
                  cases h
                  refine .inr ⟨root, hroot.1, by simpa using hroot.2, rfl,
                    by simpa using hlength, ?_⟩
                  exact Nat.not_lt.mp hdepth
    · cases h

theorem chain_of_levels (ht : TenantsOf registry tenants)
    (hall : ∀ key, key ∈ tenants.map Prod.fst ↔ IsTenant registry key) {levels : List TenantLevel}
    (h : resolveTenantLevels registry tenants = .ok levels) : TenantChainOf registry levels := by
  rcases resolveTenantLevels_ok h with ⟨model, rfl, rfl⟩ |
    ⟨root, hroot, hfree, rfl, hlength, hbound⟩
  · refine ⟨nodup_singleton _, hall, ?_, ?_, .singleton _, rfl, by simp⟩
    · intro level hlevel
      rw [mem_singleton.mp hlevel]
      exact ⟨model.2, ht.mem model mem_cons_self, rfl⟩
    · intro level hlevel
      cases hlevel
      exact ⟨rfl, rfl⟩
  · have hparents : ((parentMap registry tenants).map ParentLink.key).Nodup := by
      rw [parentMap, parentMap_keys]
      exact ht.keys.sublist (filter_sublist.map Prod.fst)
    have hwalk : root.1 ∉ (walkLevels (parentMap registry tenants) tenants.length root.1 1).map
        TenantLevel.key := by
      intro hmem
      obtain ⟨level, hlevel, hkey⟩ := mem_map.mp hmem
      obtain ⟨link, hlink, hlinkKey, _⟩ := mem_walkLevels hlevel
      exact hfree (mem_map.mpr ⟨link, hlink, hlinkKey.symm.trans hkey⟩)
    have hlink : ∀ link ∈ parentMap registry tenants, ∃ model ∈ tenants,
        parentLink registry tenants model = some link :=
      fun link hlink => mem_filterMap.mp hlink
    have htables : ∀ level ∈ rootLevel root ::
        walkLevels (parentMap registry tenants) tenants.length root.1 1,
        ∃ model ∈ tenants, level.key = model.1 ∧ level.tableName = model.2.table.name := by
      intro level hlevel
      rcases mem_cons.mp hlevel with rfl | hlevel
      · exact ⟨root, hroot, rfl, rfl⟩
      · obtain ⟨link, hmem, hkey, htable, _⟩ := mem_walkLevels hlevel
        obtain ⟨model, hmodel, hsome⟩ := hlink link hmem
        obtain ⟨hlinkKey, hlinkTable, _⟩ := parentLink_some hsome
        exact ⟨model, hmodel, hkey.trans hlinkKey, htable.trans hlinkTable⟩
    have hnodup : ((rootLevel root :: walkLevels (parentMap registry tenants) tenants.length
        root.1 1).map TenantLevel.key).Nodup := by
      rw [map_cons, nodup_cons]
      exact ⟨hwalk, walkLevels_nodup hparents _ _ hwalk⟩
    refine ⟨hnodup, ?_, ?_, ?_, ?_, ?_, hbound⟩
    · intro key
      rw [← hall]
      have hsub : (rootLevel root :: walkLevels (parentMap registry tenants) tenants.length
          root.1 1).map TenantLevel.key ⊆ tenants.map Prod.fst := by
        intro key hkey
        obtain ⟨level, hlevel, rfl⟩ := mem_map.mp hkey
        obtain ⟨model, hmodel, hkey, _⟩ := htables level hlevel
        exact hkey ▸ mem_map_of_mem hmodel
      have hperm := (hnodup.subperm hsub).perm_of_length_le (by
        rw [length_map, length_map, hlength])
      exact hperm.mem_iff
    · intro level hlevel
      obtain ⟨model, hmodel, hkey, htable⟩ := htables level hlevel
      exact ⟨model.2, hkey ▸ ht.mem model hmodel, htable⟩
    · intro level hlevel
      cases hlevel
      exact ⟨rfl, rfl⟩
    · refine (walkLevels_chain _ _ (rootLevel root)).imp_of_mem_tail_imp ?_
      intro parent level hparent hlevel hkey
      obtain ⟨link, hmem, hlevelKey, _, hfk, hlinkParent⟩ := mem_walkLevels hlevel
      obtain ⟨model, hmodel, hsome⟩ := hlink link hmem
      obtain ⟨hlinkKey, _, rel, hrel, hthrough⟩ := parentLink_some hsome
      obtain ⟨hone, hkey?, _, htarget⟩ := parentThrough_some hthrough
      have hparentKey : link.parentKey = parent.key :=
        Option.some.inj (hlinkParent.symm.trans hkey)
      obtain ⟨e, he, hname⟩ := tableNameToKey_some htarget
      obtain ⟨parentModel, hparentModel, hpkey, hptable⟩ := htables parent hparent
      have hsame : e = parentModel.2 := by
        refine entry_unique he ?_
        rw [hparentKey, hpkey]
        exact ht.mem parentModel hparentModel
      refine ⟨hkey, link.fk, model.2, rel, hfk, ?_, hrel, hone, hkey?, ?_⟩
      · rw [hlevelKey, hlinkKey]
        exact ht.mem model hmodel
      · rw [hptable, ← hsame, hname]
    · rw [map_cons, walkLevels_depths, length_cons, range_eq_range',
        range'_succ]
      rfl

/-! ### Indirectly scoped models -/

theorem refersTo_iff {entry : ModelRegistryEntry} {names : List String} :
    refersTo entry names = true ↔
      ∃ rel ∈ entry.relations.entries, rel.2.type = .one ∧ rel.2.target ∈ names := by
  simp [refersTo]

abbrev tableName (model : Model) : String := model.2.table.name

/-- A model that a chain of models outside `skipped` connects to one of
the names. -/
inductive Scoped (models : List Model) (skipped names : List String) : Model → Prop where
  | base {model : Model} (hmem : model ∈ models) (hskip : model.1 ∉ skipped)
      (hrefers : refersTo model.2 names = true) : Scoped models skipped names model
  | step {model next : Model} (hmem : model ∈ models) (hskip : model.1 ∉ skipped)
      (hrefers : refersTo model.2 [tableName next] = true)
      (hnext : Scoped models skipped names next) : Scoped models skipped names model

theorem Scoped.mem {models : List Model} {skipped names : List String} {model : Model}
    (h : Scoped models skipped names model) : model ∈ models ∧ model.1 ∉ skipped := by
  cases h with
  | base hmem hskip _ => exact ⟨hmem, hskip⟩
  | step hmem hskip _ _ => exact ⟨hmem, hskip⟩

section Scoping

variable {models : List Model} {skipped names : List String}

/-- The loop's variables after some models have been added. -/
def scopingOf (names : List String) (added : List Model) (changed : Bool) : Scoping :=
  ⟨added.map Prod.fst, added.map tableName, names ++ added.map tableName, changed⟩

/-- The models in the list cannot be added. -/
def SettledModels (skipped names : List String) (added models : List Model) : Prop :=
  ∀ model ∈ models, model.1 ∈ skipped ∨ tableName model ∈ added.map tableName ∨
    refersTo model.2 (names ++ added.map tableName) = false

theorem scopeModel_scopingOf (added : List Model) (changed : Bool) (model : Model) :
    scopeModel skipped (scopingOf names added changed) model =
      if model.1 ∈ skipped ∨ tableName model ∈ added.map tableName then
        scopingOf names added changed
      else if refersTo model.2 (names ++ added.map tableName) then
        scopingOf names (added ++ [model]) true
      else scopingOf names added changed := by
  have hnames : refersTo model.2 (names ++ added.map tableName ++ added.map tableName)
      = refersTo model.2 (names ++ added.map tableName) := by
    rw [Bool.eq_iff_iff, refersTo_iff, refersTo_iff]
    simp
  have hadd : scopingOf names (added ++ [model]) true =
      ⟨added.map Prod.fst ++ [model.1], added.map tableName ++ [tableName model],
        names ++ added.map tableName ++ [tableName model], true⟩ := by
    simp [scopingOf]
  rw [hadd, ← hnames]
  rfl

/-- What a pass over some of the models adds. -/
theorem pass_spec (pass : List Model) (hpass : ∀ model ∈ pass, model ∈ models) (added : List Model)
    (changed : Bool) (hscoped : ∀ model ∈ added, Scoped models skipped names model)
    (hnodup : (added.map tableName).Nodup) :
    ∃ new changed', pass.foldl (scopeModel skipped) (scopingOf names added changed)
        = scopingOf names (added ++ new) changed' ∧
      (∀ model ∈ added ++ new, Scoped models skipped names model) ∧
      ((added ++ new).map tableName).Nodup ∧
      ((new = [] ∧ changed' = changed ∧ SettledModels skipped names added pass) ∨
        (new ≠ [] ∧ changed' = true)) := by
  induction pass generalizing added changed with
  | nil =>
    refine ⟨[], changed, by simp, by simpa using hscoped, by simpa using hnodup,
      .inl ⟨rfl, rfl, ?_⟩⟩
    exact fun _ h => nomatch h
  | cons model pass ih =>
    rw [foldl_cons, scopeModel_scopingOf]
    have hrest := fun model hmodel => hpass model (mem_cons_of_mem _ hmodel)
    have hkeep : (model.1 ∈ skipped ∨ tableName model ∈ added.map tableName ∨
        refersTo model.2 (names ++ added.map tableName) = false) →
        ∃ new changed', pass.foldl (scopeModel skipped) (scopingOf names added changed)
            = scopingOf names (added ++ new) changed' ∧
          (∀ model ∈ added ++ new, Scoped models skipped names model) ∧
          ((added ++ new).map tableName).Nodup ∧
          ((new = [] ∧ changed' = changed ∧ SettledModels skipped names added (model :: pass)) ∨
            (new ≠ [] ∧ changed' = true)) := by
      intro hsettled
      obtain ⟨new, changed', hfold, hnew, hdistinct, hcases⟩ :=
        ih hrest added changed hscoped hnodup
      refine ⟨new, changed', hfold, hnew, hdistinct, hcases.imp_left ?_⟩
      rintro ⟨rfl, hsame, hrest⟩
      exact ⟨rfl, hsame, forall_mem_cons.mpr ⟨hsettled, hrest⟩⟩
    split
    · next hskip => exact hkeep (hskip.imp_right .inl)
    · next hskip =>
        obtain ⟨hskipped, hname⟩ := not_or.mp hskip
        split
        · next hrefers =>
            have hmodel : Scoped models skipped names model := by
              obtain ⟨rel, hrel, hone, htarget⟩ := refersTo_iff.mp hrefers
              have hmem := hpass model mem_cons_self
              rcases mem_append.mp htarget with htarget | htarget
              · exact .base hmem hskipped (refersTo_iff.mpr ⟨rel, hrel, hone, htarget⟩)
              · obtain ⟨next, hnext, hname⟩ := mem_map.mp htarget
                refine .step hmem hskipped (refersTo_iff.mpr ⟨rel, hrel, hone, ?_⟩)
                  (hscoped next hnext)
                exact mem_singleton.mpr hname.symm
            obtain ⟨new, changed', hfold, hnew, hdistinct, hcases⟩ :=
              ih hrest (added ++ [model]) true
              (by
                intro m hm
                rcases mem_append.mp hm with hm | hm
                · exact hscoped m hm
                · rw [mem_singleton.mp hm]
                  exact hmodel)
              (by
                rw [map_append, map_singleton]
                exact List.Nodup.append hnodup (nodup_singleton _) (by simpa using hname))
            rw [append_assoc] at hfold hnew hdistinct
            refine ⟨model :: new, changed', hfold, hnew, hdistinct,
              .inr ⟨cons_ne_nil _ _, ?_⟩⟩
            rcases hcases with ⟨_, hsame, _⟩ | ⟨_, hsame⟩
            · exact hsame
            · exact hsame
        · next hrefers => exact hkeep (.inr (.inr (by simpa using hrefers)))

/-- The loop ends, with models that are scoped and with nothing to add. -/
theorem resolveScoping_spec (fuel : ℕ) (added : List Model) (changed : Bool)
    (hscoped : ∀ model ∈ added, Scoped models skipped names model)
    (hnodup : (added.map tableName).Nodup) (hfuel : models.length < added.length + fuel) :
    ∃ final, resolveScoping skipped models fuel (scopingOf names added changed)
        = scopingOf names final false ∧
      (∀ model ∈ final, Scoped models skipped names model) ∧
      SettledModels skipped names final models := by
  induction fuel generalizing added changed with
  | zero =>
    have hsub : added.Subperm models :=
      (hnodup.of_map tableName).subperm fun model hmodel => (hscoped model hmodel).mem.1
    have := hsub.length_le
    omega
  | succ fuel ih =>
    obtain ⟨new, changed', hfold, hnew, hdistinct, hcases⟩ :=
      pass_spec models (fun _ h => h) added false hscoped hnodup
    have hstep : resolveScoping skipped models (fuel + 1) (scopingOf names added changed) =
        if (models.foldl (scopeModel skipped) (scopingOf names added false)).changed then
          resolveScoping skipped models fuel
            (models.foldl (scopeModel skipped) (scopingOf names added false))
        else models.foldl (scopeModel skipped) (scopingOf names added false) := rfl
    rw [hstep, hfold]
    rcases hcases with ⟨rfl, rfl, hsettled⟩ | ⟨hne, rfl⟩
    · rw [append_nil]
      exact ⟨added, rfl, hscoped, hsettled⟩
    · have hpos := length_pos_iff.mpr hne
      refine ih (added ++ new) true hnew hdistinct ?_
      rw [length_append]
      omega

/-- Once nothing can be added the table of every scoped model was. -/
theorem Scoped.name_mem {final : List Model} (hfinal : SettledModels skipped names final models)
    {model : Model} (h : Scoped models skipped names model) :
    tableName model ∈ final.map tableName := by
  induction h with
  | @base model hmem hskip hrefers =>
    rcases hfinal model hmem with hskipped | hname | hnone
    · exact absurd hskipped hskip
    · exact hname
    · obtain ⟨rel, hrel, hone, htarget⟩ := refersTo_iff.mp hrefers
      rw [refersTo_iff.mpr ⟨rel, hrel, hone, mem_append_left _ htarget⟩] at hnone
      cases hnone
  | @step model next hmem hskip hrefers _ ih =>
    rcases hfinal model hmem with hskipped | hname | hnone
    · exact absurd hskipped hskip
    · exact hname
    · obtain ⟨rel, hrel, hone, htarget⟩ := refersTo_iff.mp hrefers
      rw [mem_singleton] at htarget
      rw [refersTo_iff.mpr ⟨rel, hrel, hone, mem_append_right _ (htarget ▸ ih)⟩] at hnone
      cases hnone

end Scoping

/-! ### The graph -/

/-- The keys that no model is looked at for being directly scoped. -/
def markedKeys (registry : ModelRegistry) : List String :=
  (tenantModels registry.entries).map Prod.fst ++ sharedKeys registry.entries

theorem mem_markedKeys :
    key ∈ markedKeys registry ↔ IsTenant registry key ∨ IsShared registry key := by
  rw [markedKeys, mem_append, mem_tenantKeys, mem_sharedKeys]

def directKeys (registry : ModelRegistry) (root : TenantLevel) : List String :=
  (registry.entries.filter fun model =>
    model.1 ∉ markedKeys registry ∧ (refsTo model.2 root.tableName).length = 1).map Prod.fst

theorem mem_directKeys {root : TenantLevel} :
    key ∈ directKeys registry root ↔
      ∃ e, (key, e) ∈ registry.entries ∧ ¬ IsTenant registry key ∧ ¬ IsShared registry key ∧
        (refsTo e root.tableName).length = 1 := by
  simp [directKeys, mem_markedKeys, not_or, and_assoc]

/-- The keys that are never indirectly scoped, and the names that a chain
of relations has to reach. -/
def skippedKeys (registry : ModelRegistry) (root : TenantLevel) : List String :=
  (tenantModels registry.entries).map Prod.fst ++ directKeys registry root ++
    sharedKeys registry.entries

def scopedNames (registry : ModelRegistry) (root : TenantLevel) : List String :=
  tableNames registry.entries ((tenantModels registry.entries).map Prod.fst) ++
    tableNames registry.entries (directKeys registry root)

def graphWith (registry : ModelRegistry) (root : TenantLevel) (levels : List TenantLevel) :
    TenantGraph where
  root := some root.key
  levels := levels
  directlyScoped := directKeys registry root
  indirectlyScoped := (resolveScoping (skippedKeys registry root) registry.entries
    (registry.entries.length + 1) ⟨[], [], scopedNames registry root, false⟩).indirectlyScoped
  shared := sharedKeys registry.entries

theorem computeTenantGraph_ok_iff (graph : TenantGraph) :
    computeTenantGraph registry = .ok graph ↔
      MarkedOnce registry.entries ∧
        ((tenantModels registry.entries = [] ∧
            graph = ⟨none, [], [], [], sharedKeys registry.entries⟩) ∨
          ∃ root rest,
            resolveTenantLevels registry (tenantModels registry.entries) = .ok (root :: rest) ∧
            OneRef root (markedKeys registry) registry.entries ∧
            graph = graphWith registry root (root :: rest)) := by
  unfold computeTenantGraph
  constructor
  · intro h
    obtain ⟨found, hfound, h⟩ := bind_eq_ok h
    obtain ⟨hmarked, rfl⟩ := (markedModels_ok_iff _ _).mp hfound
    refine ⟨hmarked, ?_⟩
    dsimp only at h
    split at h
    · next hempty =>
        cases h
        exact .inl ⟨isEmpty_iff.mp hempty, rfl⟩
    · obtain ⟨levels, hlevels, h⟩ := bind_eq_ok h
      cases levels with
      | nil =>
        rcases resolveTenantLevels_ok hlevels with ⟨_, _, hnil⟩ | ⟨_, _, _, hnil, _⟩
        · cases hnil
        · cases hnil
      | cons root rest =>
        obtain ⟨direct, hdirect, h⟩ := bind_eq_ok h
        obtain ⟨hone, rfl⟩ := (findDirectlyScoped_ok_iff _ _ _ _).mp hdirect
        cases h
        exact .inr ⟨root, rest, hlevels, hone, rfl⟩
  · rintro ⟨hmarked, hcases⟩
    dsimp only
    rw [(markedModels_ok_iff _ _).mpr ⟨hmarked, rfl⟩, ok_bind]
    dsimp only
    rcases hcases with ⟨hempty, rfl⟩ | ⟨root, rest, hlevels, hone, rfl⟩
    · rw [hempty]
      rfl
    · have hne : (tenantModels registry.entries).isEmpty = false := by
        cases htenants : tenantModels registry.entries with
        | nil => rw [htenants] at hlevels; cases hlevels
        | cons _ _ => rfl
      have hdirect := (findDirectlyScoped_ok_iff root (markedKeys registry) registry.entries
        (directKeys registry root)).mpr ⟨hone, rfl⟩
      rw [hne, if_neg (by decide), hlevels, ok_bind]
      dsimp only
      rw [markedKeys] at hdirect
      rw [hdirect]
      rfl

theorem mem_tableNames {models : List Model} {keys : List String} {name : String} :
    name ∈ tableNames models keys ↔
      ∃ key e, (key, e) ∈ models ∧ key ∈ keys ∧ e.table.name = name := by
  simp [tableNames, and_assoc]

/-- Being scoped is to be connected to a tenant or directly scoped model
by relations to tables that are not shared. -/
theorem scoped_iff {root : TenantLevel} {e : ModelRegistryEntry}
    (he : (key, e) ∈ registry.entries) :
    Scoped registry.entries (skippedKeys registry root) (scopedNames registry root) (key, e) ↔
      key ∉ skippedKeys registry root ∧ ∃ key', Relation.TransGen (Refers registry) key key' ∧
        (IsTenant registry key' ∨ key' ∈ directKeys registry root) := by
  have hskipped : ∀ key, key ∈ skippedKeys registry root ↔
      IsTenant registry key ∨ key ∈ directKeys registry root ∨ IsShared registry key := by
    intro key
    rw [skippedKeys, append_assoc, mem_append, mem_append, mem_tenantKeys,
      mem_sharedKeys]
  have hnames : ∀ name, name ∈ scopedNames registry root ↔ ∃ key e, (key, e) ∈ registry.entries ∧
      (IsTenant registry key ∨ key ∈ directKeys registry root) ∧ e.table.name = name := by
    intro name
    rw [scopedNames, mem_append, mem_tableNames, mem_tableNames]
    simp only [mem_tenantKeys]
    constructor
    · rintro (⟨key, e, he, hkey, hname⟩ | ⟨key, e, he, hkey, hname⟩)
      · exact ⟨key, e, he, .inl hkey, hname⟩
      · exact ⟨key, e, he, .inr hkey, hname⟩
    · rintro ⟨key, e, he, hkey | hkey, hname⟩
      · exact .inl ⟨key, e, he, hkey, hname⟩
      · exact .inr ⟨key, e, he, hkey, hname⟩
  have hopen : ∀ key e, (key, e) ∈ registry.entries →
      IsTenant registry key ∨ key ∈ directKeys registry root → e.table.shared = false := by
    rintro key e he (⟨e', he', _, hshared⟩ | hdirect)
    · rwa [entry_unique he he']
    · obtain ⟨e', he', _, hnot, _⟩ := mem_directKeys.mp hdirect
      by_contra hshared
      exact hnot ⟨e, he, by simpa using hshared⟩
  constructor
  · intro h
    refine ⟨h.mem.2, ?_⟩
    generalize hmodel : (key, e) = model at h
    induction h generalizing key e with
    | base hmem _ hrefers =>
      subst hmodel
      obtain ⟨rel, hrel, hone, htarget⟩ := refersTo_iff.mp hrefers
      obtain ⟨key', e', he', hgoal, hname⟩ := (hnames _).mp htarget
      exact ⟨key', .single ⟨e, e', rel, hmem, he', hopen key' e' he' hgoal, hrel, hone,
        hname.symm⟩, hgoal⟩
    | @step _ next hmem _ hrefers hnext ih =>
      subst hmodel
      obtain ⟨rel, hrel, hone, htarget⟩ := refersTo_iff.mp hrefers
      obtain ⟨hnextMem, hnextSkip⟩ := hnext.mem
      obtain ⟨key', hpath, hgoal⟩ := ih hnextMem rfl
      have hshared : next.2.table.shared = false := by
        by_contra hshared
        exact hnextSkip
          ((hskipped _).mpr (.inr (.inr ⟨next.2, hnextMem, by simpa using hshared⟩)))
      exact ⟨key', .head ⟨e, next.2, rel, hmem, hnextMem, hshared, hrel, hone,
        mem_singleton.mp htarget⟩ hpath, hgoal⟩
  · rintro ⟨hskip, key', hpath, hgoal⟩
    have hbase : ∀ {key key' : String} {e : ModelRegistryEntry}, (key, e) ∈ registry.entries →
        key ∉ skippedKeys registry root → Refers registry key key' →
        IsTenant registry key' ∨ key' ∈ directKeys registry root →
        Scoped registry.entries (skippedKeys registry root) (scopedNames registry root)
          (key, e) := by
      rintro key key' e he hskip ⟨e₁, e', rel, he₁, he', _, hrel, hone, htarget⟩ hgoal
      rw [entry_unique he₁ he] at hrel
      exact .base he hskip (refersTo_iff.mpr ⟨rel, hrel, hone,
        (hnames _).mpr ⟨key', e', he', hgoal, htarget.symm⟩⟩)
    induction hpath using Relation.TransGen.head_induction_on generalizing e with
    | single hstep => exact hbase he hskip hstep hgoal
    | @head key next hstep hrest ih =>
      by_cases hnext : IsTenant registry next ∨ next ∈ directKeys registry root
      · exact hbase he hskip hstep hnext
      · obtain ⟨e₁, e', rel, he₁, he', hshared, hrel, hone, htarget⟩ := hstep
        rw [entry_unique he₁ he] at hrel
        have hskip' : next ∉ skippedKeys registry root := by
          rw [hskipped]
          rintro (htenant | hdirect | ⟨e₂, he₂, hshared₂⟩)
          · exact hnext (.inl htenant)
          · exact hnext (.inr hdirect)
          · rw [entry_unique he₂ he', hshared] at hshared₂
            cases hshared₂
        refine .step he hskip (refersTo_iff.mpr ⟨rel, hrel, hone, ?_⟩) (ih he' hskip')
        rw [htarget]
        exact mem_singleton.mpr rfl

/-- The models that the loop finds: their tables are those of the scoped
models, and they are scoped. -/
theorem indirectlyScoped_spec (registry : ModelRegistry) (root : TenantLevel)
    (levels : List TenantLevel) :
    ∃ final : List Model, (graphWith registry root levels).indirectlyScoped = final.map Prod.fst ∧
      (∀ model ∈ final, Scoped registry.entries (skippedKeys registry root)
        (scopedNames registry root) model) ∧
      ∀ model,
        Scoped registry.entries (skippedKeys registry root) (scopedNames registry root) model →
        tableName model ∈ final.map tableName := by
  have hempty : ∀ model ∈ ([] : List Model), Scoped registry.entries (skippedKeys registry root)
      (scopedNames registry root) model := fun _ h => nomatch h
  obtain ⟨final, hresolved, hscoped, hsettled⟩ :=
    resolveScoping_spec (registry.entries.length + 1) [] false hempty nodup_nil (by simp)
  refine ⟨final, ?_, hscoped, fun model hmodel => hmodel.name_mem hsettled⟩
  have hstart : scopingOf (scopedNames registry root) [] false
      = ⟨[], [], scopedNames registry root, false⟩ := by
    simp [scopingOf]
  rw [hstart] at hresolved
  rw [graphWith, hresolved]
  rfl

theorem mem_skippedKeys {root : TenantLevel} :
    key ∈ skippedKeys registry root ↔
      IsTenant registry key ∨ key ∈ directKeys registry root ∨ IsShared registry key := by
  rw [skippedKeys, append_assoc, mem_append, mem_append, mem_tenantKeys,
    mem_sharedKeys]

theorem model_of_table (hown : OwnTables registry) {model model' : Model}
    (h : model ∈ registry.entries) (h' : model' ∈ registry.entries)
    (hname : tableName model = tableName model') : model = model' :=
  inj_on_of_nodup_map hown h h' hname

theorem connected_of_indirectlyScoped {root : TenantLevel} {levels : List TenantLevel}
    (h : key ∈ (graphWith registry root levels).indirectlyScoped) :
    Connected registry (graphWith registry root levels) key := by
  obtain ⟨final, hfinal, hscoped, _⟩ := indirectlyScoped_spec registry root levels
  rw [hfinal] at h
  obtain ⟨⟨_, e⟩, hmem, rfl⟩ := mem_map.mp h
  have hmodel := hscoped _ hmem
  obtain ⟨hskip, hpath⟩ := (scoped_iff hmodel.mem.1).mp hmodel
  rw [mem_skippedKeys, not_or, not_or] at hskip
  exact ⟨hskip.1, hskip.2.2, hskip.2.1, hpath⟩

theorem mem_indirectlyScoped (hown : OwnTables registry) (root : TenantLevel)
    (levels : List TenantLevel) (key : String) :
    key ∈ (graphWith registry root levels).indirectlyScoped ↔
      Connected registry (graphWith registry root levels) key := by
  refine ⟨connected_of_indirectlyScoped, ?_⟩
  rintro ⟨htenant, hshared, hdirect, key', hpath, hgoal⟩
  obtain ⟨e, he⟩ : ∃ e, (key, e) ∈ registry.entries := by
    obtain ⟨_, ⟨e, _, _, he, _⟩, _⟩ := Relation.TransGen.head'_iff.mp hpath
    exact ⟨e, he⟩
  have hskip : key ∉ skippedKeys registry root := by
    rw [mem_skippedKeys]
    rintro (h | h | h)
    · exact htenant h
    · exact hdirect h
    · exact hshared h
  have hmodel := (scoped_iff he).mpr ⟨hskip, key', hpath, hgoal⟩
  obtain ⟨final, hfinal, hscoped, hcomplete⟩ := indirectlyScoped_spec registry root levels
  obtain ⟨model, hmem, hname⟩ := mem_map.mp (hcomplete _ hmodel)
  have hsame := model_of_table hown (hscoped model hmem).mem.1 he hname
  rw [hfinal]
  exact mem_map.mpr ⟨model, hmem, congrArg Prod.fst hsame⟩

theorem computeTenantGraph_describes {graph : TenantGraph}
    (h : computeTenantGraph registry = .ok graph) : Describes registry graph := by
  obtain ⟨_, ⟨hnone, rfl⟩ | ⟨root, rest, hlevels, _, rfl⟩⟩ := (computeTenantGraph_ok_iff graph).mp h
  · have htenants : ∀ key, ¬ IsTenant registry key := by
      intro key hkey
      rw [← mem_tenantKeys, hnone] at hkey
      cases hkey
    exact {
      root := rfl
      levels := ⟨nodup_nil, fun key => iff_of_false not_mem_nil (htenants key),
        (fun _ h => nomatch h), (fun _ h => nomatch h), .nil, rfl, Nat.zero_le 4⟩
      shared := fun key => mem_sharedKeys
      directlyScoped := fun key => iff_of_false not_mem_nil
        fun ⟨_, _, _, _, _, hroot, _⟩ => nomatch hroot
      indirectlyScoped := fun _ h => nomatch h
      connected := fun _ _ ⟨_, _, _, key', _, hgoal⟩ =>
        absurd hgoal (not_or.mpr ⟨htenants key', not_mem_nil⟩) }
  · exact {
      root := rfl
      levels := chain_of_levels (tenantModels_of registry) (fun _ => mem_tenantKeys) hlevels
      shared := fun key => mem_sharedKeys
      directlyScoped := fun key => by
        refine mem_directKeys.trans ?_
        simp [graphWith]
      indirectlyScoped := fun _ => connected_of_indirectlyScoped
      connected := fun hown key => (mem_indirectlyScoped hown root (root :: rest) key).mpr }

/-! ### Another order -/

/-- The relations are the same in some order. -/
def SameModel (e e' : ModelRegistryEntry) : Prop :=
  e.table = e'.table ∧ e.relations.entries.Perm e'.relations.entries

/-- The registries have the same models, each in its own order. -/
structure Reordered (a b : ModelRegistry) : Prop where
  forth : ∀ key e, (key, e) ∈ a.entries → ∃ e', (key, e') ∈ b.entries ∧ SameModel e e'
  back : ∀ key e, (key, e) ∈ b.entries → ∃ e', (key, e') ∈ a.entries ∧ SameModel e e'

/-- The levels are the same but for the foreign key to the parent, of
which there can be several. -/
def SameLevel (l l' : TenantLevel) : Prop :=
  l.key = l'.key ∧ l.tableName = l'.tableName ∧ l.parentKey = l'.parentKey ∧ l.depth = l'.depth

structure SameGraph (graph graph' : TenantGraph) : Prop where
  root : graph.root = graph'.root
  levels : List.Forall₂ SameLevel graph.levels graph'.levels
  shared : ∀ key, key ∈ graph.shared ↔ key ∈ graph'.shared
  directlyScoped : ∀ key, key ∈ graph.directlyScoped ↔ key ∈ graph'.directlyScoped
  indirectlyScoped : ∀ key, key ∈ graph.indirectlyScoped ↔ key ∈ graph'.indirectlyScoped

section Reorder

variable {a b : ModelRegistry}

theorem Reordered.symm (h : Reordered a b) : Reordered b a := ⟨h.back, h.forth⟩

theorem Reordered.isTenant (h : Reordered a b) (key : String) :
    IsTenant a key ↔ IsTenant b key := by
  have hforth : ∀ {a b : ModelRegistry}, Reordered a b → IsTenant a key → IsTenant b key := by
    rintro a b h ⟨e, he, htenant, hshared⟩
    obtain ⟨e', he', hsame, _⟩ := h.forth key e he
    exact ⟨e', he', hsame ▸ htenant, hsame ▸ hshared⟩
  exact ⟨hforth h, hforth h.symm⟩

theorem Reordered.isShared (h : Reordered a b) (key : String) :
    IsShared a key ↔ IsShared b key := by
  have hforth : ∀ {a b : ModelRegistry}, Reordered a b → IsShared a key → IsShared b key := by
    rintro a b h ⟨e, he, hshared⟩
    obtain ⟨e', he', hsame, _⟩ := h.forth key e he
    exact ⟨e', he', hsame ▸ hshared⟩
  exact ⟨hforth h, hforth h.symm⟩

theorem Reordered.refers (h : Reordered a b) (key key' : String) :
    Refers a key key' ↔ Refers b key key' := by
  have hforth : ∀ {a b : ModelRegistry}, Reordered a b → Refers a key key' → Refers b key key' := by
    rintro a b h ⟨e, e', rel, he, he', hshared, hrel, hone, htarget⟩
    obtain ⟨f, hf, _, hperm⟩ := h.forth key e he
    obtain ⟨f', hf', hsame, _⟩ := h.forth key' e' he'
    exact ⟨f, f', rel, hf, hf', hsame ▸ hshared, hperm.mem_iff.mp hrel, hone,
      htarget.trans (congrArg (·.name) hsame)⟩
  exact ⟨hforth h, hforth h.symm⟩

theorem refsTo_length {e e' : ModelRegistryEntry} (h : SameModel e e') (name : String) :
    (refsTo e name).length = (refsTo e' name).length := by
  rw [refsTo, refsTo, length_map, length_map]
  exact (h.2.filter _).length_eq

theorem Reordered.tables (h : Reordered a b) (name key : String) :
    (name, key) ∈ a.entries.map (fun model => (model.2.table.name, model.1)) ↔
      (name, key) ∈ b.entries.map (fun model => (model.2.table.name, model.1)) := by
  have hforth : ∀ {a b : ModelRegistry}, Reordered a b →
      (name, key) ∈ a.entries.map (fun model => (model.2.table.name, model.1)) →
      (name, key) ∈ b.entries.map (fun model => (model.2.table.name, model.1)) := by
    intro a b h hmem
    obtain ⟨⟨_, e⟩, he, heq⟩ := mem_map.mp hmem
    cases heq
    obtain ⟨e', he', hsame, _⟩ := h.forth _ e he
    exact mem_map.mpr ⟨(_, e'), he', by rw [hsame]⟩
  exact ⟨hforth h, hforth h.symm⟩

theorem Reordered.ownTables (h : Reordered a b) (hown : OwnTables a) : OwnTables b := by
  refine List.Nodup.map_on ?_ (b.nodup.of_map _)
  rintro ⟨key, e⟩ he ⟨key', e'⟩ he' hname
  obtain ⟨f, hf, hsame, _⟩ := h.back key e he
  obtain ⟨f', hf', hsame', _⟩ := h.back key' e' he'
  have hkeys := model_of_table hown hf hf' (by
    show f.table.name = f'.table.name
    rw [← hsame, ← hsame']
    exact hname)
  have hkey : key = key' := congrArg Prod.fst hkeys
  subst hkey
  rw [entry_unique he he']

theorem Reordered.tableNameToKey (h : Reordered a b) (hown : OwnTables a) (name : String) :
    tableNameToKey a name = tableNameToKey b name := by
  have hfst : ∀ r : ModelRegistry, OwnTables r →
      ((r.entries.map fun model => (model.2.table.name, model.1)).map Prod.fst).Nodup := by
    intro r hr
    rw [map_map]
    exact hr
  refine Option.ext fun key => ?_
  unfold Db.Client.tableNameToKey
  rw [lookupLast_of_nodup (hfst a hown),
    lookupLast_of_nodup (hfst b (h.ownTables hown)), ← mem_iff_lookup (hfst a hown),
    ← mem_iff_lookup (hfst b (h.ownTables hown))]
  exact h.tables name key

theorem Reordered.tenantKeys (h : Reordered a b) :
    ((tenantModels a.entries).map Prod.fst).Perm ((tenantModels b.entries).map Prod.fst) := by
  refine (perm_ext_iff_of_nodup (tenantModels_of a).keys (tenantModels_of b).keys).mpr ?_
  intro key
  rw [mem_tenantKeys, mem_tenantKeys]
  exact h.isTenant key

theorem mem_tenantNames {registry : ModelRegistry} {name : String} :
    name ∈ (tenantModels registry.entries).map (fun model => model.2.table.name) ↔
      ∃ key e, (key, e) ∈ registry.entries ∧ e.table.tenant = true ∧ e.table.shared = false ∧
        e.table.name = name := by
  simp [tenantModels, isTenantModel, and_assoc]

theorem Reordered.tenantNames (h : Reordered a b) (name : String) :
    name ∈ (tenantModels a.entries).map (fun model => model.2.table.name) ↔
      name ∈ (tenantModels b.entries).map (fun model => model.2.table.name) := by
  have hforth : ∀ {a b : ModelRegistry}, Reordered a b →
      name ∈ (tenantModels a.entries).map (fun model => model.2.table.name) →
      name ∈ (tenantModels b.entries).map (fun model => model.2.table.name) := by
    intro a b h hmem
    obtain ⟨key, e, he, htenant, hshared, hname⟩ := mem_tenantNames.mp hmem
    obtain ⟨e', he', hsame, _⟩ := h.forth key e he
    exact mem_tenantNames.mpr ⟨key, e', he', hsame ▸ htenant, hsame ▸ hshared, hsame ▸ hname⟩
  exact ⟨hforth h, hforth h.symm⟩

/-- A relation leads to the same parent in both registries. -/
theorem Reordered.parentThrough (h : Reordered a b) (hown : OwnTables a) (rel : RelationDef) :
    parentThrough a (tenantModels a.entries) rel =
      parentThrough b (tenantModels b.entries) rel := by
  unfold Db.Client.parentThrough
  simp only [h.tenantNames, h.tableNameToKey hown, h.tenantKeys.mem_iff]

theorem tenantRef_of_parentThrough {registry : ModelRegistry} {rel : RelationDef}
    {parent : String × String}
    (h : Db.Client.parentThrough registry (tenantModels registry.entries) rel = some parent) :
    TenantRef registry rel := by
  obtain ⟨hone, hkey, hname, _⟩ := parentThrough_some h
  exact ⟨hone, by rw [hkey]; exact Option.some_ne_none _, mem_tenantNames.mp hname⟩

/-- What a link says besides the foreign key. -/
def ParentLink.skeleton (link : ParentLink) : String × String × String :=
  (link.key, link.tableName, link.parentKey)

/-- The first result in a list, and in the list in another order, when all
results agree in what is looked at. -/
theorem findSome?_perm {α β γ : Type} {l l' : List α} (hperm : l.Perm l') (f : α → Option β)
    (g : β → γ)
    (hagree : ∀ x ∈ l, ∀ y ∈ l, ∀ u v, f x = some u → f y = some v → g u = g v) :
    (l.findSome? f).map g = (l'.findSome? f).map g := by
  cases h : l.findSome? f with
  | none =>
    have hnone : l'.findSome? f = none := by
      rw [findSome?_eq_none_iff] at h ⊢
      exact fun x hx => h x (hperm.mem_iff.mpr hx)
    rw [hnone]
  | some u =>
    obtain ⟨x, hx, hu⟩ := exists_of_findSome?_eq_some h
    cases h' : l'.findSome? f with
    | none =>
      rw [findSome?_eq_none_iff] at h'
      rw [h' x (hperm.mem_iff.mp hx)] at hu
      cases hu
    | some v =>
      obtain ⟨y, hy, hv⟩ := exists_of_findSome?_eq_some h'
      exact congrArg some (hagree x hx y (hperm.mem_iff.mpr hy) u v hu hv)

theorem Reordered.parentLink (h : Reordered a b) (hown : OwnTables a) (hone : OneParent a)
    {key : String} {e e' : ModelRegistryEntry} (he : (key, e) ∈ tenantModels a.entries)
    (hsame : SameModel e e') :
    (parentLink a (tenantModels a.entries) (key, e)).map ParentLink.skeleton =
      (parentLink b (tenantModels b.entries) (key, e')).map ParentLink.skeleton := by
  have hthrough : (fun rel : String × RelationDef =>
      Db.Client.parentThrough b (tenantModels b.entries) rel.2) = fun rel =>
      Db.Client.parentThrough a (tenantModels a.entries) rel.2 :=
    funext fun rel => (h.parentThrough hown rel.2).symm
  obtain ⟨hmem, hmarked⟩ := mem_filter.mp he
  obtain ⟨htenant, hshared⟩ : e.table.tenant = true ∧ e.table.shared = false := by
    simpa [isTenantModel] using hmarked
  have hfirst := findSome?_perm hsame.2
    (fun rel => Db.Client.parentThrough a (tenantModels a.entries) rel.2) Prod.fst (by
      intro rel hrel rel' hrel' u v hu hv
      have htarget := hone key e hmem htenant hshared rel hrel rel' hrel'
        (tenantRef_of_parentThrough hu) (tenantRef_of_parentThrough hv)
      have hu' := (parentThrough_some hu).2.2.2
      have hv' := (parentThrough_some hv).2.2.2
      rw [htarget, hv'] at hu'
      exact (Option.some.inj hu').symm)
  unfold Db.Client.parentLink
  rw [hthrough, Option.map_map, Option.map_map]
  have hskeleton : ∀ (e : ModelRegistryEntry) (r : Option (String × String)),
      r.map (ParentLink.skeleton ∘ fun parent => ⟨key, e.table.name, parent.1, parent.2⟩) =
        (r.map Prod.fst).map fun parentKey => (key, e.table.name, parentKey) := by
    intro e r
    cases r <;> rfl
  rw [hskeleton e, hskeleton e', hfirst, hsame.1]

theorem Reordered.parentMap (h : Reordered a b) (hown : OwnTables a) (hone : OneParent a) :
    ((parentMap a (tenantModels a.entries)).map ParentLink.skeleton).Perm
      ((parentMap b (tenantModels b.entries)).map ParentLink.skeleton) := by
  -- a tenant's link depends on its key alone
  have hkeys : ∀ r : ModelRegistry,
      (Db.Client.parentMap r (tenantModels r.entries)).map ParentLink.skeleton =
        ((tenantModels r.entries).map Prod.fst).filterMap fun key => (r.get? key).bind fun e =>
          (Db.Client.parentLink r (tenantModels r.entries) (key, e)).map ParentLink.skeleton := by
    intro r
    rw [Db.Client.parentMap, map_filterMap, filterMap_map]
    refine filterMap_congr fun model hmodel => ?_
    have hmem := (tenantModels_of r).mem model hmodel
    rw [Function.comp_apply, (mem_entries_iff r).mp hmem]
    rfl
  rw [hkeys a, hkeys b]
  refine (List.Perm.of_eq (filterMap_congr fun key hkey => ?_)).trans
    (h.tenantKeys.filterMap _)
  obtain ⟨⟨_, e⟩, he, rfl⟩ := mem_map.mp hkey
  obtain ⟨e', he', hsame⟩ := h.forth _ e ((tenantModels_of a).mem _ he)
  rw [(mem_entries_iff a).mp ((tenantModels_of a).mem _ he),
    (mem_entries_iff b).mp he']
  exact h.parentLink hown hone he hsame

section Links

variable {parents parents' : List ParentLink}

section

variable (hperm : (parents.map ParentLink.skeleton).Perm (parents'.map ParentLink.skeleton))

include hperm

theorem skeleton_perm_keys :
    (parents.map ParentLink.key).Perm (parents'.map ParentLink.key) ∧
      (parents.map ParentLink.parentKey).Perm (parents'.map ParentLink.parentKey) := by
  have hkey := hperm.map Prod.fst
  have hparent := hperm.map fun s => s.2.2
  rw [map_map, map_map] at hkey hparent
  exact ⟨hkey, hparent⟩

/-- The child of a key is found in both lists, when no key has two. -/
theorem find?_skeleton (hnodup : (parents.map ParentLink.parentKey).Nodup) (current : String) :
    (parents.find? fun link => link.parentKey == current).map ParentLink.skeleton =
      (parents'.find? fun link => link.parentKey == current).map ParentLink.skeleton := by
  cases h : parents.find? fun link => link.parentKey == current with
  | none =>
    have hnone : (parents'.find? fun link => link.parentKey == current) = none := by
      rw [find?_eq_none] at h ⊢
      intro link' hlink' hparent
      obtain ⟨link, hlink, hsame⟩ := mem_map.mp
        (hperm.mem_iff.mpr (mem_map_of_mem hlink'))
      have hkey : link.parentKey = link'.parentKey := congrArg (·.2.2) hsame
      exact h link hlink (by rw [hkey]; exact hparent)
    rw [hnone]
  | some link =>
    have hlink := mem_of_find?_eq_some h
    have hparent : link.parentKey = current := by simpa using find?_some h
    cases h' : parents'.find? fun link => link.parentKey == current with
    | none =>
      rw [find?_eq_none] at h'
      obtain ⟨link', hlink', hsame⟩ := mem_map.mp
        (hperm.mem_iff.mp (mem_map_of_mem hlink))
      have hkey : link'.parentKey = link.parentKey := congrArg (·.2.2) hsame
      exact absurd (by simpa using hkey.trans hparent) (h' link' hlink')
    | some link' =>
      have hparent' : link'.parentKey = current := by simpa using find?_some h'
      obtain ⟨link'', hlink'', hsame⟩ := mem_map.mp
        (hperm.mem_iff.mpr (mem_map_of_mem (mem_of_find?_eq_some h')))
      have hkey : link''.parentKey = link'.parentKey := congrArg (·.2.2) hsame
      have heq : link'' = link := inj_on_of_nodup_map hnodup hlink'' hlink
        (by rw [hkey, hparent', hparent])
      rw [Option.map_some, Option.map_some, ← heq, hsame]

theorem walkLevels_skeleton (hnodup : (parents.map ParentLink.parentKey).Nodup) (fuel depth : ℕ)
    (current : String) :
    List.Forall₂ SameLevel (walkLevels parents fuel current depth)
      (walkLevels parents' fuel current depth) := by
  induction fuel generalizing current depth with
  | zero => exact .nil
  | succ fuel ih =>
    have hfind := find?_skeleton hperm hnodup current
    rw [walkLevels, walkLevels]
    cases h : parents.find? fun link => link.parentKey == current with
    | none =>
      rw [h] at hfind
      rw [Option.map_eq_none_iff.mp hfind.symm]
      exact .nil
    | some child =>
      rw [h] at hfind
      obtain ⟨child', h', hsame⟩ := Option.map_eq_some_iff.mp hfind.symm
      have hkey : child.key = child'.key := (congrArg Prod.fst hsame).symm
      have htable : child.tableName = child'.tableName := (congrArg (·.2.1) hsame).symm
      rw [h']
      refine .cons ⟨hkey, htable, rfl, rfl⟩ ?_
      rw [hkey]
      exact ih _ _

end

end Links

/-- Several tenant models form a chain when one of them has no parent, no
two have the same one, and the walk from the root meets all of them. -/
theorem resolveTenantLevels_several {registry : ModelRegistry} {tenants : List Model}
    (hlone : tenants.length ≠ 1) (levels : List TenantLevel) :
    resolveTenantLevels registry tenants = .ok levels ↔
      ∃ root, (tenants.filter fun model =>
          model.1 ∉ (parentMap registry tenants).map ParentLink.key) = [root] ∧
        ((parentMap registry tenants).map ParentLink.parentKey).Nodup ∧
        levels = rootLevel root ::
          walkLevels (parentMap registry tenants) tenants.length root.1 1 ∧
        levels.length = tenants.length ∧ levels.length ≤ maxTenantLevels := by
  unfold resolveTenantLevels
  split
  · next model => exact absurd rfl hlone
  · dsimp only
    split
    · next root hroots =>
        constructor
        · intro h
          split at h
          · cases h
          · next hnodup =>
              split at h
              · cases h
              · next hlength =>
                  split at h
                  · cases h
                  · next hdepth =>
                      cases h
                      exact ⟨root, hroots, not_not.mp hnodup, rfl, not_not.mp hlength,
                        Nat.not_lt.mp hdepth⟩
        · rintro ⟨root', hroots', hnodup, rfl, hlength, hdepth⟩
          rw [hroots] at hroots'
          cases hroots'
          rw [if_neg (not_not.mpr hnodup), if_neg (not_not.mpr hlength),
            if_neg (Nat.not_lt.mpr hdepth)]
    · next hroots =>
        constructor
        · intro h
          cases h
        · rintro ⟨root, hroot, _⟩
          exact absurd hroot (hroots root)

theorem Reordered.sameTable (h : Reordered a b) {model model' : Model}
    (hmodel : model ∈ a.entries) (hmodel' : model' ∈ b.entries) (hkey : model.1 = model'.1) :
    tableName model = tableName model' := by
  obtain ⟨key, e⟩ := model
  obtain ⟨key', e'⟩ := model'
  cases hkey
  obtain ⟨f, hf, hsame, _⟩ := h.forth key e hmodel
  rw [entry_unique hf hmodel'] at hsame
  exact congrArg (·.name) hsame

theorem Reordered.levels (h : Reordered a b) (hown : OwnTables a) (hone : OneParent a)
    {levels : List TenantLevel}
    (ha : resolveTenantLevels a (tenantModels a.entries) = .ok levels) :
    ∃ levels', resolveTenantLevels b (tenantModels b.entries) = .ok levels' ∧
      List.Forall₂ SameLevel levels levels' := by
  have hkeys := h.tenantKeys
  have hlength : (tenantModels a.entries).length = (tenantModels b.entries).length := by
    simpa using hkeys.length_eq
  have hroot : ∀ model ∈ tenantModels a.entries, ∀ model' ∈ tenantModels b.entries,
      model.1 = model'.1 → SameLevel (rootLevel model) (rootLevel model') := by
    intro model hmodel model' hmodel' hkey
    exact ⟨hkey, h.sameTable ((tenantModels_of a).mem model hmodel)
      ((tenantModels_of b).mem model' hmodel') hkey, rfl, rfl⟩
  by_cases hlone : (tenantModels a.entries).length = 1
  · obtain ⟨model, hmodel⟩ := length_eq_one_iff.mp hlone
    obtain ⟨model', hmodel'⟩ := length_eq_one_iff.mp (hlength.symm.trans hlone)
    rw [hmodel, hmodel'] at hkeys hroot
    rw [hmodel] at ha
    cases ha
    rw [hmodel']
    refine ⟨[rootLevel model'], rfl, .cons (hroot model (by simp) model' (by simp) ?_) .nil⟩
    simpa using hkeys.eq_singleton
  · obtain ⟨root, hroots, hnodup, rfl, hall, hdepth⟩ :=
      (resolveTenantLevels_several hlone levels).mp ha
    have hskeleton := h.parentMap hown hone
    obtain ⟨hlinkKeys, hparents⟩ := skeleton_perm_keys hskeleton
    have hrootKeys : ∀ r : ModelRegistry, ((tenantModels r.entries).filter fun model =>
        model.1 ∉ (Db.Client.parentMap r (tenantModels r.entries)).map ParentLink.key).map
          Prod.fst = ((tenantModels r.entries).map Prod.fst).filter fun key =>
            key ∉ (Db.Client.parentMap r (tenantModels r.entries)).map ParentLink.key := by
      intro r
      rw [filter_map]
      rfl
    have hfree : ((tenantModels b.entries).filter fun model =>
        model.1 ∉ (Db.Client.parentMap b (tenantModels b.entries)).map ParentLink.key).map
          Prod.fst = [root.1] := by
      refine perm_singleton.mp (List.Perm.symm ?_)
      have ha' := hrootKeys a
      rw [hroots] at ha'
      rw [hrootKeys b]
      refine (List.Perm.of_eq ha').trans ((hkeys.filter _).trans (List.Perm.of_eq ?_))
      exact filter_congr fun key _ => by rw [decide_eq_decide, hlinkKeys.mem_iff]
    obtain ⟨root', hroots', hrootKey⟩ : ∃ root', ((tenantModels b.entries).filter fun model =>
        model.1 ∉ (Db.Client.parentMap b (tenantModels b.entries)).map ParentLink.key) = [root'] ∧
          root'.1 = root.1 := by
      obtain ⟨root', hsingle, hkey⟩ := map_eq_singleton_iff.mp hfree
      exact ⟨root', hsingle, hkey⟩
    have hmem : root ∈ tenantModels a.entries :=
      (mem_filter.mp (hroots ▸ mem_singleton_self root)).1
    have hmem' : root' ∈ tenantModels b.entries :=
      (mem_filter.mp (hroots' ▸ mem_singleton_self root')).1
    have hwalk := walkLevels_skeleton hskeleton hnodup (tenantModels a.entries).length 1 root.1
    have hsame : List.Forall₂ SameLevel
        (rootLevel root :: walkLevels (Db.Client.parentMap a (tenantModels a.entries))
          (tenantModels a.entries).length root.1 1)
        (rootLevel root' :: walkLevels (Db.Client.parentMap b (tenantModels b.entries))
          (tenantModels b.entries).length root'.1 1) := by
      refine .cons (hroot root hmem root' hmem' hrootKey.symm) ?_
      rw [← hlength, hrootKey]
      exact hwalk
    refine ⟨_, (resolveTenantLevels_several (hlength ▸ hlone) _).mpr
      ⟨root', hroots', hparents.nodup_iff.mp hnodup, rfl, ?_, ?_⟩, hsame⟩
    · rw [← hsame.length_eq, hall, hlength]
    · rw [← hsame.length_eq]
      exact hdepth

/-- A graph that is computed is computed from the models in any order. -/
theorem Reordered.graph (h : Reordered a b) (hown : OwnTables a) (hone : OneParent a)
    {graph : TenantGraph} (ha : computeTenantGraph a = .ok graph) :
    ∃ graph', computeTenantGraph b = .ok graph' ∧ SameGraph graph graph' := by
  obtain ⟨hmarked, hcases⟩ := (computeTenantGraph_ok_iff graph).mp ha
  have hmarked' : MarkedOnce b.entries := by
    rintro ⟨key, e⟩ he hboth
    obtain ⟨f, hf, hsame, _⟩ := h.back key e he
    exact hmarked _ hf (hsame ▸ hboth)
  rcases hcases with ⟨hnone, rfl⟩ | ⟨root, rest, hlevels, honeRef, rfl⟩
  · refine ⟨_, (computeTenantGraph_ok_iff _).mpr ⟨hmarked', .inl ⟨?_, rfl⟩⟩,
      ⟨rfl, .nil, ?_, fun _ => Iff.rfl, fun _ => Iff.rfl⟩⟩
    · have hperm := h.tenantKeys
      rw [hnone] at hperm
      exact map_eq_nil_iff.mp hperm.symm.eq_nil
    · intro key
      rw [mem_sharedKeys, mem_sharedKeys]
      exact h.isShared key
  · obtain ⟨levels', hlevels', hsame⟩ := h.levels hown hone hlevels
    obtain ⟨root', rest', hroot, hrest⟩ : ∃ root' rest', SameLevel root root' ∧
        levels' = root' :: rest' := by
      cases hsame with
      | cons hroot _ => exact ⟨_, _, hroot, rfl⟩
    subst hrest
    have hdirect : ∀ key, key ∈ directKeys a root ↔ key ∈ directKeys b root' := by
      have hforth : ∀ {a b : ModelRegistry} {root root' : TenantLevel}, Reordered a b →
          root.tableName = root'.tableName → ∀ key, key ∈ directKeys a root →
          key ∈ directKeys b root' := by
        intro a b root root' h htable key hkey
        obtain ⟨e, he, htenant, hshared, hrefs⟩ := mem_directKeys.mp hkey
        obtain ⟨e', he', hmodel⟩ := h.forth key e he
        refine mem_directKeys.mpr ⟨e', he', ?_, ?_, ?_⟩
        · rwa [← h.isTenant]
        · rwa [← h.isShared]
        · rw [← refsTo_length hmodel, ← htable, hrefs]
      intro key
      exact ⟨hforth h hroot.2.1 key, hforth h.symm hroot.2.1.symm key⟩
    have honeRef' : OneRef root' (markedKeys b) b.entries := by
      rintro ⟨key, e⟩ he hkey
      obtain ⟨f, hf, hmodel⟩ := h.back key e he
      rw [refsTo_length hmodel, ← hroot.2.1]
      refine honeRef (key, f) hf ?_
      rwa [mem_markedKeys, h.isTenant, h.isShared, ← mem_markedKeys]
    refine ⟨_, (computeTenantGraph_ok_iff _).mpr ⟨hmarked', .inr ⟨root', rest', hlevels',
      honeRef', rfl⟩⟩, ⟨congrArg some hroot.1, hsame, ?_, hdirect, ?_⟩⟩
    · intro key
      show key ∈ sharedKeys a.entries ↔ key ∈ sharedKeys b.entries
      rw [mem_sharedKeys, mem_sharedKeys]
      exact h.isShared key
    · intro key
      have hrefers : Refers a = Refers b := funext fun k => funext fun k' => propext (h.refers k k')
      have hdirect' : ∀ key, key ∈ (graphWith a root (root :: rest)).directlyScoped ↔
          key ∈ (graphWith b root' (root' :: rest')).directlyScoped := hdirect
      rw [mem_indirectlyScoped hown, mem_indirectlyScoped (h.ownTables hown), Connected, Connected,
        hrefers]
      simp only [h.isTenant, h.isShared, hdirect']

theorem Reordered.oneParent (h : Reordered a b) (hone : OneParent a) : OneParent b := by
  have htenantRef : ∀ rel, TenantRef b rel → TenantRef a rel := by
    rintro rel ⟨htype, hkey, hname⟩
    exact ⟨htype, hkey, mem_tenantNames.mp ((h.tenantNames _).mpr (mem_tenantNames.mpr hname))⟩
  intro key e he htenant hshared rel hrel rel' hrel' htr htr'
  obtain ⟨f, hf, hsame, hperm⟩ := h.back key e he
  exact hone key f hf (hsame ▸ htenant) (hsame ▸ hshared) rel (hperm.mem_iff.mp hrel) rel'
    (hperm.mem_iff.mp hrel') (htenantRef _ htr) (htenantRef _ htr')

end Reorder

/-- A graph that is computed describes its registry; when no two models
share a table and no tenant model refers to several tenant tables, a
registry in another order has the same graph, or none as well. -/
theorem computeTenantGraph_correct (registry : ModelRegistry) :
    (∀ graph, computeTenantGraph registry = .ok graph → Describes registry graph) ∧
    (OwnTables registry → OneParent registry → ∀ registry', Reordered registry registry' →
      (∃ graph graph', computeTenantGraph registry = .ok graph ∧
        computeTenantGraph registry' = .ok graph' ∧ SameGraph graph graph') ∨
      ∃ message message', computeTenantGraph registry = .error message ∧
        computeTenantGraph registry' = .error message') := by
  refine ⟨fun graph h => computeTenantGraph_describes h, ?_⟩
  intro hown hone registry' h
  cases hgraph : computeTenantGraph registry with
  | ok graph =>
    obtain ⟨graph', hgraph', hsame⟩ := h.graph hown hone hgraph
    exact .inl ⟨graph, graph', rfl, hgraph', hsame⟩
  | error message =>
    cases hgraph' : computeTenantGraph registry' with
    | error message' => exact .inr ⟨message, message', rfl, rfl⟩
    | ok graph' =>
      obtain ⟨graph, hgraph'', _⟩ := h.symm.graph (h.ownTables hown) (h.oneParent hone) hgraph'
      rw [hgraph] at hgraph''
      cases hgraph''

/-! ### Four registries -/

/-- A model with `ref.one` relations, each named by its target. -/
def modelOf (name : String) (tenant shared : Bool) (refs : List (String × String)) :
    ModelRegistryEntry where
  table := { name := name, columns := .empty, tenant := tenant, shared := shared }
  relations := .ofList (refs.map fun ref => (ref.1, ⟨.one, ref.1, some ref.2⟩))

def accountsModel : Model := ("accounts", modelOf "accounts" true false [])

def projectsModel : Model :=
  ("projects", modelOf "projects" true false [("accounts", "accountId")])

/-- Tasks of a project, and the plans that all accounts share. -/
def projectApp : ModelRegistry :=
  .ofList [accountsModel, projectsModel,
    ("tasks", modelOf "tasks" false false [("projects", "projectId")]),
    ("plans", modelOf "plans" false true [])]

def sitesWith (refs : List (String × String)) : ModelRegistry :=
  .ofList [accountsModel, projectsModel, ("sites", modelOf "sites" true false refs)]

/-- Sites refer to their project, and to its account as well. -/
def sites : ModelRegistry := sitesWith [("projects", "projectId"), ("accounts", "accountId")]

def sitesReordered : ModelRegistry :=
  sitesWith [("accounts", "accountId"), ("projects", "projectId")]

/-- Invoices refer to a shared table that refers to accounts. -/
def invoices : ModelRegistry :=
  .ofList [accountsModel, ("plans", modelOf "plans" false true [("accounts", "accountId")]),
    ("invoices", modelOf "invoices" false false [("plans", "planId")])]

/-- Two models of one table. -/
def doubled : ModelRegistry :=
  .ofList [accountsModel, projectsModel,
    ("tasks", modelOf "tasks" false false [("projects", "projectId")]),
    ("todos", modelOf "tasks" false false [("projects", "projectId")])]

def projectGraph : TenantGraph where
  root := some "accounts"
  levels := [⟨"accounts", "accounts", none, none, 0⟩,
    ⟨"projects", "projects", some "accountId", some "accounts", 1⟩]
  directlyScoped := []
  indirectlyScoped := ["tasks"]
  shared := ["plans"]

theorem projectApp_graph : computeTenantGraph projectApp = .ok projectGraph := by
  decide +kernel

def reversed (registry : ModelRegistry) : ModelRegistry :=
  ⟨registry.entries.reverse, by
    rw [map_reverse]
    exact nodup_reverse.mpr registry.nodup⟩

theorem reordered_reversed (registry : ModelRegistry) : Reordered registry (reversed registry) where
  forth := fun _ e he => ⟨e, mem_reverse.mpr he, rfl, .refl _⟩
  back := fun _ e he => ⟨e, mem_reverse.mp he, rfl, .refl _⟩

theorem projectApp_oneParent : OneParent projectApp := by
  intro key e he _ _ rel hrel rel' hrel' _ _
  have hshort : e.relations.entries.length ≤ 1 := by
    have hall : ∀ model ∈ projectApp.entries, model.2.relations.entries.length ≤ 1 := by
      decide +kernel
    exact hall _ he
  obtain ⟨i, hi, rfl⟩ := getElem_of_mem hrel
  obtain ⟨j, hj, rfl⟩ := getElem_of_mem hrel'
  obtain rfl : i = 0 := by omega
  obtain rfl : j = 0 := by omega
  rfl

/-- The graph of the project app, and of its models in the reverse order. -/
theorem projectApp_described : Describes projectApp projectGraph ∧
    ((∃ graph graph', computeTenantGraph projectApp = .ok graph ∧
        computeTenantGraph (reversed projectApp) = .ok graph' ∧ SameGraph graph graph') ∨
      ∃ message message', computeTenantGraph projectApp = .error message ∧
        computeTenantGraph (reversed projectApp) = .error message') := by
  have hown : OwnTables projectApp := by
    unfold OwnTables
    decide +kernel
  obtain ⟨hdescribes, hreordered⟩ := computeTenantGraph_correct projectApp
  exact ⟨hdescribes projectGraph projectApp_graph,
    hreordered hown projectApp_oneParent (reversed projectApp) (reordered_reversed projectApp)⟩

/-- A `ref.one` relation of one model leads to the table of the other,
shared or not. -/
def LeadsTo (registry : ModelRegistry) (key key' : String) : Prop :=
  ∃ e e' rel, (key, e) ∈ registry.entries ∧ (key', e') ∈ registry.entries ∧
    rel ∈ e.relations.entries ∧ rel.2.type = .one ∧ rel.2.target = e'.table.name

/-- Every model with one `ref.one` to the root is directly scoped. -/
def DirectByRefs (registry : ModelRegistry) (graph : TenantGraph) : Prop :=
  ∀ key e, (key, e) ∈ registry.entries → (key ∈ graph.directlyScoped ↔
    ∃ root ∈ graph.levels.head?, (refsTo e root.tableName).length = 1)

/-- Every other model that relations connect to a scoped one is
indirectly scoped. -/
def IndirectByRefs (registry : ModelRegistry) (graph : TenantGraph) : Prop :=
  ∀ key, key ∈ graph.indirectlyScoped ↔
    ¬ IsTenant registry key ∧ ¬ IsShared registry key ∧ key ∉ graph.directlyScoped ∧
      ∃ key', Relation.TransGen (LeadsTo registry) key key' ∧
        (IsTenant registry key' ∨ key' ∈ graph.directlyScoped)

theorem LeadsTo.of_ref {registry : ModelRegistry} {key key' : String}
    {e e' : ModelRegistryEntry} {rel : String × RelationDef}
    (he : (key, e) ∈ registry.entries) (he' : (key', e') ∈ registry.entries)
    (hrel : rel ∈ e.relations.entries) (hto : rel.2.type = .one ∧ rel.2.target = e'.table.name) :
    LeadsTo registry key key' :=
  ⟨e, e', rel, he, he', hrel, hto⟩

theorem not_indirectByRefs {registry : ModelRegistry} {graph : TenantGraph} {key key' : String}
    (hkey : key ∉ (tenantModels registry.entries).map Prod.fst ++ sharedKeys registry.entries ++
      graph.directlyScoped ++ graph.indirectlyScoped)
    (hleads : Relation.TransGen (LeadsTo registry) key key')
    (hkey' : key' ∈ (tenantModels registry.entries).map Prod.fst) :
    ¬ IndirectByRefs registry graph := by
  intro h
  simp only [mem_append, not_or] at hkey
  obtain ⟨⟨⟨htenant, hshared⟩, hdirect⟩, hindirect⟩ := hkey
  exact hindirect ((h key).mpr ⟨fun h => htenant (mem_tenantKeys.mpr h),
    fun h => hshared (mem_sharedKeys.mpr h), hdirect, key', hleads, .inl (mem_tenantKeys.mp hkey')⟩)

def invoicesGraph : TenantGraph where
  root := some "accounts"
  levels := [⟨"accounts", "accounts", none, none, 0⟩]
  directlyScoped := []
  indirectlyScoped := []
  shared := ["plans"]

theorem invoices_graph : computeTenantGraph invoices = .ok invoicesGraph := by
  decide +kernel

def doubledGraph : TenantGraph := { projectGraph with shared := [] }

theorem doubled_graph : computeTenantGraph doubled = .ok doubledGraph := by
  decide +kernel

theorem sitesWith_matched {refs refs' : List (String × String)}
    (h : SameModel (modelOf "sites" true false refs) (modelOf "sites" true false refs'))
    (key : String) (e : ModelRegistryEntry) (he : (key, e) ∈ (sitesWith refs).entries) :
    ∃ e', (key, e') ∈ (sitesWith refs').entries ∧ SameModel e e' := by
  obtain he | ⟨_, he | ⟨_, he | ⟨_, he⟩⟩⟩ := he
  · exact ⟨_, .head _, rfl, .refl _⟩
  · exact ⟨_, .tail _ (.head _), rfl, .refl _⟩
  · exact ⟨_, .tail _ (.tail _ (.head _)), h⟩
  · cases he

theorem sites_reordered : Reordered sites sitesReordered where
  forth := sitesWith_matched ⟨rfl, .swap _ _ _⟩
  back := sitesWith_matched ⟨rfl, .swap _ _ _⟩

/-- A tenant level with one reference to the root is not directly scoped;
a model that is connected through a shared table, or whose table another
model has, is not indirectly scoped; and whether there is a graph can
depend on the order of a tenant model's relations. -/
theorem tenantGraph_misses :
    (∃ graph, computeTenantGraph projectApp = .ok graph ∧ ¬ DirectByRefs projectApp graph) ∧
    (∃ graph, computeTenantGraph invoices = .ok graph ∧ ¬ IndirectByRefs invoices graph) ∧
    (∃ graph, computeTenantGraph doubled = .ok graph ∧ ¬ IndirectByRefs doubled graph) ∧
    ¬ ∀ registry registry', Reordered registry registry' →
      ((∃ graph, computeTenantGraph registry = .ok graph) ↔
        ∃ graph, computeTenantGraph registry' = .ok graph) := by
  refine ⟨⟨_, projectApp_graph, ?_⟩, ⟨_, invoices_graph, ?_⟩, ⟨_, doubled_graph, ?_⟩, ?_⟩
  · intro h
    have hroot : (refsTo projectsModel.2 "accounts").length = 1 := by decide +kernel
    have hdirect := (h "projects" projectsModel.2 (.tail _ (.head _))).mpr ⟨_, rfl, hroot⟩
    cases hdirect
  · have hplans : LeadsTo invoices "invoices" "plans" :=
      .of_ref (.tail _ (.tail _ (.head _))) (.tail _ (.head _)) (.head _) ⟨rfl, rfl⟩
    have haccounts : LeadsTo invoices "plans" "accounts" :=
      .of_ref (.tail _ (.head _)) (.head _) (.head _) ⟨rfl, rfl⟩
    exact not_indirectByRefs (by decide +kernel) (.tail (.single hplans) haccounts)
      (by decide +kernel)
  · have hprojects : LeadsTo doubled "todos" "projects" :=
      .of_ref (.tail _ (.tail _ (.tail _ (.head _)))) (.tail _ (.head _)) (.head _) ⟨rfl, rfl⟩
    exact not_indirectByRefs (by decide +kernel) (.single hprojects) (by decide +kernel)
  · intro h
    have hok : (computeTenantGraph sites).toOption.isSome = true := by decide +kernel
    have herror : (computeTenantGraph sitesReordered).toOption.isSome = false := by
      decide +kernel
    cases hgraph : computeTenantGraph sites with
    | error message => simp [hgraph, Except.toOption] at hok
    | ok graph =>
      obtain ⟨graph', hgraph'⟩ := (h sites sitesReordered sites_reordered).mp ⟨graph, hgraph⟩
      simp [hgraph', Except.toOption] at herror

end Vertz.Proofs
