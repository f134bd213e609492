import Mathlib.Algebra.GroupWithZero.Nat
import Vertz.Lib.Run
import Vertz.Ui.Dom.List

/-!
# `Vertz.Proofs.ListRegions`: a container with static children and lists

A run starts with an empty container or with one that hydration has
claimed. It appends static children and lists and changes the items of
the lists in any order. The state keeps the container's parts in the order
in which they were created, each list with the keys of its current items.

`Arranged` is what the container should look like, and `Arranges` what a
step should lead to: a container that is arranged, with the nodes of the
kept keys. A step is `Careful` when `startOffset` is still where the
region starts.
-/

namespace Vertz.Spec

open List hiding getElem?_eq_some_iff
open Vertz.Ui.Dom

variable {K T : Type} [DecidableEq K]

/-- The nodes of keys, in their order. -/
def nodesOf (list : ListRegion K T) (keys : List K) : List Node :=
  keys.filterMap list.nodeMap.lookup

def scopesOf (list : ListRegion K T) (keys : List K) : List Scope :=
  keys.filterMap list.scopeMap.lookup

/-- A static child, or a list with the keys of its current items. -/
inductive Part (K T : Type) where
  | static (node : Node)
  | region (list : ListRegion K T) (keys : List K)

namespace Part

/-- The nodes of a part: those of a list in the order of its items. -/
def nodes : Part K T → List Node
  | static node => [node]
  | region list keys => nodesOf list keys

/-- The scopes of a part, one for each key of a list. -/
def scopes : Part K T → List Scope
  | static _ => []
  | region list keys => scopesOf list keys

end Part

structure ListRun (K T : Type) where
  container : Container
  parts : List (Part K T)

/-- A child of the container: static, or a list of items. -/
inductive Child (K T : Type) where
  | static
  | list (keyFn : T → ℕ → K) (items : List T)

/-- How many nodes a child renders. -/
def Child.size : Child K T → ℕ
  | static => 1
  | list _ items => items.length

/-- A static child or a list is appended, or the items of the list at a
position change. -/
inductive ListStep (K T : Type) where
  | append (child : Child K T)
  | update (position : ℕ) (items : List T)

namespace ListRun

/-- Claim a child that the server has rendered. -/
def claim (run : ListRun K T) : Child K T → ListRun K T
  | .static =>
    let (container, node) := run.container.renderFn
    { container := container, parts := run.parts ++ [.static node] }
  | .list keyFn items =>
    let (container, list) := __list run.container keyFn items true
    { container := container, parts := run.parts ++ [.region list (keysOf keyFn items)] }

/-- A page hydrated from what the server rendered of its children. -/
def hydrated (children : List (Child K T)) : ListRun K T :=
  children.foldl claim ⟨.ssr (children.map Child.size).sum, []⟩

def append (run : ListRun K T) : Child K T → ListRun K T
  | .static =>
    let (container, node) := run.container.renderFn
    { container := container.appendChild node, parts := run.parts ++ [.static node] }
  | .list keyFn items =>
    let (container, list) := __list run.container keyFn items false
    { container := container, parts := run.parts ++ [.region list (keysOf keyFn items)] }

def update (run : ListRun K T) (position : ℕ) (items : List T) : ListRun K T :=
  match run.parts[position]? with
  | some (.region list _) =>
    let (container, list') := list.run run.container items
    { container := container
      parts := run.parts.set position (.region list' (keysOf list.keyFn items)) }
  | _ => run

def step (run : ListRun K T) : ListStep K T → ListRun K T
  | .append child => run.append child
  | .update position items => run.update position items

/-- The children are the static nodes and the lists in the order of their
creation, and there is one live scope for each current key. -/
structure Arranged (run : ListRun K T) : Prop where
  children : run.container.childNodes = run.parts.flatMap Part.nodes
  distinct : run.container.childNodes.Nodup
  nodeKeys : ∀ list keys, .region list keys ∈ run.parts → ∀ key, key ∈ list.nodeMap ↔ key ∈ keys
  scopeKeys : ∀ list keys, .region list keys ∈ run.parts → ∀ key, key ∈ list.scopeMap ↔ key ∈ keys
  scopes : run.container.live.Perm (run.parts.flatMap Part.scopes)
  distinctScopes : run.container.live.Nodup

/-- A key present before and after keeps its node. -/
def Reuses (run : ListRun K T) : ListStep K T → Prop
  | .append _ => True
  | .update position items => ∀ list keys list' keys',
      run.parts[position]? = some (.region list keys) →
      (run.update position items).parts[position]? = some (.region list' keys') →
        ∀ key ∈ keys, key ∈ keysOf list.keyFn items →
          list'.nodeMap.lookup key = list.nodeMap.lookup key

def Arranges (run : ListRun K T) (step : ListStep K T) : Prop :=
  (run.step step).Arranged ∧ run.Reuses step

/-- The keys of the items are unique. -/
def UniqueChild : Child K T → Prop
  | .static => True
  | .list keyFn items => (keysOf keyFn items).Nodup

def UniqueKeys (run : ListRun K T) : ListStep K T → Prop
  | .append child => UniqueChild child
  | .update position items => ∀ list keys, run.parts[position]? = some (.region list keys) →
      (keysOf list.keyFn items).Nodup

/-- What is asked of the list at a position can be decided there. -/
instance (run : ListRun K T) (position : ℕ) (P : ListRegion K T → List K → Prop)
    [∀ list keys, Decidable (P list keys)] :
    Decidable (∀ list keys, run.parts[position]? = some (.region list keys) → P list keys) :=
  match run.parts[position]? with
  | none => isTrue fun _ _ h => nomatch h
  | some (.static _) => isTrue fun _ _ h => nomatch h
  | some (.region list keys) =>
    decidable_of_iff (P list keys)
      ⟨fun h _ _ heq => (Part.region.inj (Option.some.inj heq)).1 ▸
        (Part.region.inj (Option.some.inj heq)).2 ▸ h, fun h => h list keys rfl⟩

instance (child : Child K T) : Decidable (UniqueChild child) :=
  match child with
  | .static => isTrue trivial
  | .list keyFn items => inferInstanceAs (Decidable (keysOf keyFn items).Nodup)

instance (run : ListRun K T) (step : ListStep K T) : Decidable (run.UniqueKeys step) :=
  match step with
  | .append child => inferInstanceAs (Decidable (UniqueChild child))
  | .update position items => inferInstanceAs (Decidable (∀ list keys,
      run.parts[position]? = some (.region list keys) → (keysOf list.keyFn items).Nodup))

/-- An update is careful when it leaves no items or counts from where the
region starts. It may count from a later start when nothing follows the
region, and from the next one when the last item had a node. -/
def Careful (run : ListRun K T) : ListStep K T → Prop
  | .append _ => True
  | .update position items => ∀ list keys, run.parts[position]? = some (.region list keys) →
      let start := ((run.parts.take position).flatMap Part.nodes).length
      items = [] ∨ list.startOffset = start ∨
        (start < list.startOffset ∧
          ((run.parts.drop (position + 1)).flatMap Part.nodes = [] ∨
            (list.startOffset = start + 1 ∧
              ∃ key ∈ (keysOf list.keyFn items).getLast?, key ∈ keys)))

instance (run : ListRun K T) (step : ListStep K T) : Decidable (run.Careful step) :=
  match step with
  | .append _ => isTrue trivial
  | .update _ _ => inferInstanceAs (Decidable (∀ _ _, _ → _))

end ListRun

end Vertz.Spec

/-!
## Regions next to each other

`Drawn` describes a container in the middle of a run of one list's effect:
the region's nodes between what is before and after them, the nodes just
rendered but not inserted yet, and the scopes. Removing a key, rendering
an item and the moves of `reconcile` each keep it. `Mounted` is the
invariant between the runs: every part of the container is drawn.

`careful_run_arranged` says exactly which runs keep the container
arranged, and `second_list_enters_first` is one that does not.
-/

namespace Vertz.Spec

open List hiding getElem?_eq_some_iff
open Vertz.Lib Vertz.Ui.Dom

variable {K T : Type} [DecidableEq K]

section Maps

variable {β : Type} {m : AList fun _ : K => β} {key : K} {keys : List K}

theorem filterMap_lookup_erase (h : key ∉ keys) :
    keys.filterMap (m.erase key).lookup = keys.filterMap m.lookup :=
  filterMap_congr fun _ hk => AList.lookup_erase_ne fun heq => h (heq ▸ hk)

theorem filterMap_lookup_insert (h : key ∉ keys) (b : β) :
    keys.filterMap (m.insert key b).lookup = keys.filterMap m.lookup :=
  filterMap_congr fun _ hk => AList.lookup_insert_ne fun heq => h (heq ▸ hk)

end Maps

theorem nodup_snoc {α : Type} {l : List α} {a : α} (h : l.Nodup) (ha : a ∉ l) :
    (l ++ [a]).Nodup := List.Nodup.append h (nodup_singleton a) (by simpa using ha)

theorem lt_snoc {l : List ℕ} {n : ℕ} (h : ∀ m ∈ l, m < n) : ∀ m ∈ l ++ [n], m < n + 1 := by
  simp only [mem_append, mem_singleton]
  rintro m (hm | rfl)
  · exact Nat.lt_succ_of_lt (h m hm)
  · exact Nat.lt_succ_self _

theorem nodesOf_nil (list : ListRegion K T) : nodesOf list [] = [] := rfl

theorem nodesOf_cons {list : ListRegion K T} {key : K} {node : Node} {keys : List K}
    (h : list.nodeMap.lookup key = some node) :
    nodesOf list (key :: keys) = node :: nodesOf list keys :=
  filterMap_cons_some h

/-- A container while the effect of a list runs: the keys that have their
nodes in the container, and those that were just made. -/
structure Drawn (before after unclaimed : List Node) (others : List Scope) (container : Container)
    (list : ListRegion K T) (kept made : List K) : Prop where
  children : container.childNodes = before ++ (nodesOf list kept ++ after)
  distinct : (before ++ (nodesOf list kept ++ after) ++ nodesOf list made).Nodup
  bound : ∀ n ∈ before ++ (nodesOf list kept ++ after) ++ nodesOf list made, n < container.nodes
  nodeKeys : ∀ key, key ∈ list.nodeMap ↔ key ∈ kept ++ made
  scopeKeys : ∀ key, key ∈ list.scopeMap ↔ key ∈ kept ++ made
  keys : (kept ++ made).Nodup
  scopes : container.live.Perm (others ++ scopesOf list (kept ++ made))
  distinctScopes : container.live.Nodup
  boundScopes : ∀ s ∈ container.live, s < container.scopes
  claimed : container.unclaimed = unclaimed

/-- What stays the same of a list: its key function and its offset. -/
structure SameList (list list' : ListRegion K T) : Prop where
  keyFn : list'.keyFn = list.keyFn
  startOffset : list'.startOffset = list.startOffset

theorem removeKey_frame (state : Container × ListRegion K T) (key : K) (node : Node) :
    SameList state.2 (ListRegion.removeKey state key node).2 ∧
      (ListRegion.removeKey state key node).2.nodeMap = state.2.nodeMap.erase key := by
  obtain ⟨container, list⟩ := state
  simp only [ListRegion.removeKey]
  split
  · exact ⟨⟨rfl, rfl⟩, rfl⟩
  · exact ⟨⟨rfl, rfl⟩, rfl⟩

namespace Drawn

variable {before after unclaimed : List Node} {others : List Scope} {container : Container}
  {list : ListRegion K T} {kept made : List K} {key : K} {node : Node}

theorem removeKey (h : Drawn before after unclaimed others container list kept []) (hkey : key ∈ kept)
    (hnode : list.nodeMap.lookup key = some node) :
    Drawn before after unclaimed others (ListRegion.removeKey (container, list) key node).1
      (ListRegion.removeKey (container, list) key node).2 (kept.erase key) [] := by
  obtain ⟨scope, hscope⟩ : ∃ scope, list.scopeMap.lookup key = some scope :=
    Option.isSome_iff_exists.mp
      (AList.lookup_isSome.mpr ((h.scopeKeys key).mpr (mem_append_left _ hkey)))
  have hkept : kept.Nodup := by simpa using h.keys
  obtain ⟨kept₁, kept₂, rfl⟩ := append_of_mem hkey
  have hnot : key ∉ kept₁ ++ kept₂ := (nodup_cons.mp (nodup_middle.mp hkept)).1
  have herase : (kept₁ ++ key :: kept₂).erase key = kept₁ ++ kept₂ := by
    rw [erase_append_right _ fun hmem => hnot (mem_append_left _ hmem),
      erase_cons_head]
  have hnodes : nodesOf list (kept₁ ++ key :: kept₂)
      = nodesOf list kept₁ ++ node :: nodesOf list kept₂ := by
    simp [nodesOf, hnode]
  have hscopes : scopesOf list (kept₁ ++ key :: kept₂)
      = scopesOf list kept₁ ++ scope :: scopesOf list kept₂ := by
    simp [scopesOf, hscope]
  simp only [ListRegion.removeKey, hscope, herase]
  have hdistinct := h.distinct
  have hchildren := h.children
  have hbound := h.bound
  have hlive := h.scopes
  rw [append_nil] at hlive
  rw [hnodes] at hdistinct hchildren hbound
  rw [hscopes] at hlive
  have hnodes' : nodesOf { list with
      nodeMap := list.nodeMap.erase key
      scopeMap := list.scopeMap.erase key
      itemSignalMap := list.itemSignalMap.erase key } (kept₁ ++ kept₂)
      = nodesOf list kept₁ ++ nodesOf list kept₂ := by
    rw [nodesOf, filterMap_lookup_erase hnot, filterMap_append]
    rfl
  have hscopes' : scopesOf { list with
      nodeMap := list.nodeMap.erase key
      scopeMap := list.scopeMap.erase key
      itemSignalMap := list.itemSignalMap.erase key } (kept₁ ++ kept₂)
      = scopesOf list kept₁ ++ scopesOf list kept₂ := by
    rw [scopesOf, filterMap_lookup_erase hnot, filterMap_append]
    rfl
  have hsub : (before ++ (nodesOf list kept₁ ++ nodesOf list kept₂ ++ after)).Sublist
      (before ++ (nodesOf list kept₁ ++ node :: nodesOf list kept₂ ++ after)) := by
    refine List.Sublist.append_left (List.Sublist.append_right ?_ _) _
    exact List.Sublist.append_left (sublist_cons_self _ _) _
  have hkeys : ∀ k, (k ≠ key ∧ k ∈ kept₁ ++ key :: kept₂ ++ []) ↔ k ∈ kept₁ ++ kept₂ ++ [] := by
    intro k
    by_cases hk : k = key
    · subst hk
      simpa using hnot
    · simp [hk]
  refine ⟨?_, ?_, ?_, ?_, ?_, ?_, ?_, ?_, ?_, h.claimed⟩
  · have hsplit : before ++ (nodesOf list kept₁ ++ node :: nodesOf list kept₂ ++ after)
        = before ++ nodesOf list kept₁ ++ node :: (nodesOf list kept₂ ++ after) := by simp
    have hnotin : node ∉ before ++ nodesOf list kept₁ := by
      have hnodup := (nodup_append.mp hdistinct).1
      rw [hsplit] at hnodup
      intro hmem
      exact (nodup_append.mp hnodup).2.2 node hmem node mem_cons_self rfl
    show container.childNodes.erase node = _
    rw [hchildren, hsplit, erase_append_right _ hnotin, erase_cons_head, hnodes']
    simp
  · rw [hnodes']
    exact hdistinct.sublist (List.Sublist.append_right hsub _)
  · rw [hnodes']
    intro n hn
    exact hbound n ((List.Sublist.append_right hsub _).subset hn)
  · intro k
    rw [AList.mem_erase, h.nodeKeys, hkeys]
  · intro k
    rw [AList.mem_erase, h.scopeKeys, hkeys]
  · rw [← herase]
    simpa using hkept.erase key
  · have hmiddle : (others ++ (scopesOf list kept₁ ++ scope :: scopesOf list kept₂)).Perm
        (scope :: (others ++ (scopesOf list kept₁ ++ scopesOf list kept₂))) := by
      rw [← append_assoc, ← append_assoc]
      exact perm_middle
    have hlive' := (hlive.trans hmiddle).erase scope
    rw [erase_cons_head] at hlive'
    rw [append_nil, hscopes']
    exact hlive'
  · exact h.distinctScopes.erase scope
  · intro s hs
    exact h.boundScopes s (mem_of_mem_erase hs)

/-- The loop over the entries of the node map. -/
theorem removeKeys (h : Drawn before after unclaimed others container list kept [])
    (entries : List (Sigma fun _ : K => Node)) (newKeySet : List K)
    (hentries : ∀ e ∈ entries, list.nodeMap.lookup e.1 = some e.2)
    (hnodup : (entries.map Sigma.fst).Nodup) :
    ∀ state, state = entries.foldl
        (fun state e => if e.1 ∈ newKeySet then state
          else ListRegion.removeKey state e.1 e.2) (container, list) →
      Drawn before after unclaimed others state.1 state.2
        (kept.filter fun key => key ∈ newKeySet ∨ key ∉ entries.map Sigma.fst) [] ∧
      SameList list state.2 ∧
      ∀ key ∈ newKeySet, state.2.nodeMap.lookup key = list.nodeMap.lookup key := by
  induction entries generalizing container list kept with
  | nil =>
    rintro state rfl
    have hall : kept.filter (fun key => key ∈ newKeySet ∨ key ∉ ([] : List K)) = kept :=
      filter_eq_self.mpr fun key _ => by simp
    exact ⟨by simpa only [foldl_nil, map_nil, hall] using h, ⟨rfl, rfl⟩,
      fun _ _ => rfl⟩
  | cons e entries ih =>
    rintro state rfl
    rw [map_cons, nodup_cons] at hnodup
    have hrest : ∀ e' ∈ entries, e'.1 ≠ e.1 := fun e' he' heq =>
      hnodup.1 (heq ▸ mem_map_of_mem he')
    rw [foldl_cons]
    by_cases hnew : e.1 ∈ newKeySet
    · rw [if_pos hnew]
      obtain ⟨hdrawn, hframe⟩ :=
        ih h (fun e' he' => hentries e' (mem_cons_of_mem _ he')) hnodup.2 _ rfl
      have hkept : (kept.filter fun key => key ∈ newKeySet ∨ key ∉ (e :: entries).map Sigma.fst)
          = kept.filter fun key => key ∈ newKeySet ∨ key ∉ entries.map Sigma.fst := by
        refine filter_congr fun key _ => ?_
        by_cases hk : key = e.1
        · simp [hk, hnew]
        · simp only [map_cons, mem_cons, hk, false_or]
      rw [hkept]
      exact ⟨hdrawn, hframe⟩
    · rw [if_neg hnew]
      obtain ⟨hsame, hmap⟩ := removeKey_frame (container, list) e.1 e.2
      have hnode := hentries e mem_cons_self
      have hkey : e.1 ∈ kept := by
        have hmem := (h.nodeKeys e.1).mp (AList.lookup_isSome.mp (hnode ▸ rfl))
        simpa using hmem
      have hremoved := h.removeKey hkey hnode
      obtain ⟨hdrawn, hsame', hlookup⟩ := ih hremoved (fun e' he' => by
        rw [hmap, AList.lookup_erase_ne (hrest e' he')]
        exact hentries e' (mem_cons_of_mem _ he')) hnodup.2 _ rfl
      have hkept : (kept.filter fun key => key ∈ newKeySet ∨ key ∉ (e :: entries).map Sigma.fst)
          = (kept.erase e.1).filter
              fun key => key ∈ newKeySet ∨ key ∉ entries.map Sigma.fst := by
        have hnodup : kept.Nodup := by simpa using h.keys
        rw [hnodup.erase_eq_filter, filter_filter]
        refine filter_congr fun key _ => ?_
        by_cases hk : key = e.1
        · simp [hk, hnew]
        · have hne : (key != e.1) = true := by simpa using hk
          simp only [map_cons, mem_cons, hk, false_or, hne, Bool.and_true]
      rw [hkept]
      refine ⟨hdrawn, ⟨hsame'.keyFn.trans hsame.keyFn,
        hsame'.startOffset.trans hsame.startOffset⟩, fun key hin => ?_⟩
      have hne : key ≠ e.1 := fun heq => hnew (heq ▸ hin)
      rw [hlookup key hin, hmap, AList.lookup_erase_ne hne]

theorem removeMissing (h : Drawn before after unclaimed others container list kept [])
    (newKeySet : List K) :
    let state := ListRegion.removeMissing container list newKeySet
    Drawn before after unclaimed others state.1 state.2 (kept.filter (· ∈ newKeySet)) [] ∧
      SameList list state.2 ∧
      ∀ key ∈ newKeySet, state.2.nodeMap.lookup key = list.nodeMap.lookup key := by
  have hentries : ∀ e ∈ list.nodeMap.entries, list.nodeMap.lookup e.1 = some e.2 := fun e he =>
    AList.mem_lookup_iff.mpr he
  obtain ⟨hdrawn, hframe⟩ :=
    h.removeKeys list.nodeMap.entries newKeySet hentries list.nodeMap.keys_nodup _ rfl
  have hkept : (kept.filter fun key =>
      key ∈ newKeySet ∨ key ∉ list.nodeMap.entries.map Sigma.fst) = kept.filter (· ∈ newKeySet) := by
    refine filter_congr fun key hkey => ?_
    have hmem : key ∈ list.nodeMap.entries.map Sigma.fst :=
      (h.nodeKeys key).mpr (mem_append_left _ hkey)
    simp [hmem]
  rw [hkept] at hdrawn
  exact ⟨hdrawn, hframe⟩

/-- An item takes the node of its key, which is made if there is none. -/
theorem nodeFor (h : Drawn before after [] others container list kept made) (key : K) (item : T) :
    let result := list.nodeFor container key item
    ∃ made', (∀ k, k ∈ kept ++ made' ↔ k = key ∨ k ∈ kept ++ made) ∧
      Drawn before after [] others result.1.1 result.1.2 kept made' ∧ SameList list result.1.2 ∧
      result.1.2.nodeMap.lookup key = some result.2 ∧
      ∀ k ∈ kept ++ made, result.1.2.nodeMap.lookup k = list.nodeMap.lookup k := by
  cases hlookup : list.nodeMap.lookup key with
  | some node =>
    have hkey : key ∈ kept ++ made :=
      (h.nodeKeys key).mp (AList.lookup_isSome.mp (hlookup ▸ rfl))
    simp only [ListRegion.nodeFor, hlookup]
    refine ⟨made, fun k => ?_, ?_, ⟨rfl, rfl⟩, trivial, fun _ _ => trivial⟩
    · exact ⟨.inr, fun hk => hk.elim (fun heq => heq ▸ hkey) id⟩
    · exact { h with }
  | none =>
    have hnew : key ∉ kept ++ made := fun hmem =>
      AList.lookup_eq_none.mp hlookup ((h.nodeKeys key).mpr hmem)
    have hkept : key ∉ kept := fun hmem => hnew (mem_append_left _ hmem)
    have hmade : key ∉ made := fun hmem => hnew (mem_append_right _ hmem)
    simp only [ListRegion.nodeFor, hlookup, ListRegion.renderItem, Container.pushScope,
      Container.renderFn, h.claimed]
    refine ⟨made ++ [key], fun k => ?_, ?_, ⟨rfl, rfl⟩, AList.lookup_insert _, fun k hk => ?_⟩
    · simp only [mem_append, mem_singleton]
      tauto
    · have hin : ∀ k, (k = key ∨ k ∈ kept ++ made) ↔ k ∈ kept ++ (made ++ [key]) := fun k => by
        simp only [mem_append, mem_singleton]
        tauto
      have hfresh : container.nodes ∉ before ++ (nodesOf list kept ++ after) ++ nodesOf list made :=
        fun hmem => Nat.lt_irrefl _ (h.bound _ hmem)
      have hscope : container.scopes ∉ container.live :=
        fun hmem => Nat.lt_irrefl _ (h.boundScopes _ hmem)
      have hnodes : ∀ nodeMap : AList fun _ : K => Node,
          nodeMap = list.nodeMap.insert key container.nodes →
            kept.filterMap nodeMap.lookup = nodesOf list kept ∧
            (made ++ [key]).filterMap nodeMap.lookup = nodesOf list made ++ [container.nodes] := by
        rintro _ rfl
        rw [filterMap_append, filterMap_lookup_insert hkept, filterMap_lookup_insert hmade]
        exact ⟨rfl, by simp [nodesOf]⟩
      have hscopes : (kept ++ (made ++ [key])).filterMap
          (list.scopeMap.insert key container.scopes).lookup
            = scopesOf list (kept ++ made) ++ [container.scopes] := by
        rw [← append_assoc, filterMap_append, filterMap_lookup_insert hnew]
        simp [scopesOf]
      obtain ⟨hnodes, hnodes'⟩ := hnodes _ rfl
      refine ⟨?_, ?_, ?_, fun k => ?_, fun k => ?_, ?_, ?_, ?_, ?_, rfl⟩
      · rw [nodesOf, hnodes]
        exact h.children
      · rw [nodesOf, nodesOf, hnodes, hnodes', ← append_assoc]
        exact nodup_snoc h.distinct hfresh
      · rw [nodesOf, nodesOf, hnodes, hnodes', ← append_assoc]
        intro n hn
        rcases mem_append.mp hn with hn | hn
        · exact Nat.lt_succ_of_lt (h.bound n hn)
        · exact mem_singleton.mp hn ▸ Nat.lt_succ_self _
      · rw [AList.mem_insert, h.nodeKeys, hin]
      · rw [AList.mem_insert, h.scopeKeys, hin]
      · rw [← append_assoc]
        exact nodup_snoc h.keys hnew
      · rw [scopesOf, hscopes, ← append_assoc]
        exact h.scopes.append_right _
      · exact nodup_snoc h.distinctScopes hscope
      · exact lt_snoc h.boundScopes
    · exact AList.lookup_insert_ne fun heq => hnew (heq ▸ hk)

theorem desiredNodes (h : Drawn before after [] others container list kept made)
    (items : List (K × T)) :
    let result := list.desiredNodes container items
    ∃ made', (∀ k, k ∈ kept ++ made' ↔ k ∈ items.map Prod.fst ∨ k ∈ kept ++ made) ∧
      Drawn before after [] others result.1.1 result.1.2 kept made' ∧ SameList list result.1.2 ∧
      result.2 = nodesOf result.1.2 (items.map Prod.fst) ∧
      ∀ k ∈ kept ++ made, result.1.2.nodeMap.lookup k = list.nodeMap.lookup k := by
  induction items generalizing container list made with
  | nil => exact ⟨made, fun k => by simp, h, ⟨rfl, rfl⟩, rfl, fun _ _ => rfl⟩
  | cons item items ih =>
    obtain ⟨key, item⟩ := item
    obtain ⟨made₁, hmem₁, hdrawn₁, hsame₁, hnode, hkeep₁⟩ := h.nodeFor key item
    obtain ⟨made₂, hmem₂, hdrawn₂, hsame₂, hnodes, hkeep₂⟩ := ih hdrawn₁
    refine ⟨made₂, fun k => ?_, hdrawn₂, ⟨hsame₂.keyFn.trans hsame₁.keyFn,
      hsame₂.startOffset.trans hsame₁.startOffset⟩, ?_, fun k hk => ?_⟩
    · rw [hmem₂, hmem₁, map_cons, mem_cons, or_left_comm, or_assoc]
    · have hkey : key ∈ kept ++ made₁ := (hmem₁ key).mpr (.inl rfl)
      have hlookup := (hkeep₂ key hkey).trans hnode
      exact (congrArg _ hnodes).trans (nodesOf_cons hlookup).symm
    · exact (hkeep₂ k ((hmem₁ k).mpr (.inr hk))).trans (hkeep₁ k hk)

end Drawn

theorem reconcile_eq (container : Container) (startOffset : ℕ) (nodes : List Node) :
    ListRegion.reconcile container startOffset nodes =
      { container with childNodes := placeAll container.childNodes startOffset nodes } := by
  have hfold : ∀ (nodes : List Node) (k : ℕ) (container : Container),
      (nodes.zipIdx k).foldl
        (fun container desired =>
          let currentChild := container.childNodes[startOffset + desired.2]?
          if currentChild ≠ some desired.1 then container.insertBefore desired.1 currentChild
          else container) container =
      { container with childNodes := placeAll container.childNodes (startOffset + k) nodes } := by
    intro nodes
    induction nodes with
    | nil => exact fun _ _ => rfl
    | cons node nodes ih =>
      intro k container
      rw [zipIdx_cons, foldl_cons, ih, placeAll, place]
      by_cases hcurrent : container.childNodes[startOffset + k]? = some node
      · simp [hcurrent, Nat.add_assoc]
      · simp [hcurrent, Container.insertBefore, Nat.add_assoc]
  exact hfold nodes 0 container

namespace Drawn

variable {before after unclaimed : List Node} {others : List Scope} {container : Container}
  {list : ListRegion K T} {kept made newKeys : List K}

/-- Every new key has its node, kept or made. -/
structure Covers (kept made newKeys : List K) : Prop where
  distinct : newKeys.Nodup
  mem : ∀ key, key ∈ kept ++ made ↔ key ∈ newKeys

section

variable (h : Drawn before after unclaimed others container list kept made)

include h

theorem perm (hnew : Covers kept made newKeys) : (kept ++ made).Perm newKeys :=
  (perm_ext_iff_of_nodup h.keys hnew.distinct).mpr hnew.mem

theorem lookup_some {key : K} (hkey : key ∈ kept ++ made) :
    ∃ node, list.nodeMap.lookup key = some node :=
  Option.isSome_iff_exists.mp (AList.lookup_isSome.mpr ((h.nodeKeys key).mpr hkey))

theorem permNodes (hnew : Covers kept made newKeys) :
    (before ++ (nodesOf list kept ++ after) ++ nodesOf list made).Perm
      (before ++ (nodesOf list newKeys ++ after)) := by
  have hperm := (h.perm hnew).filterMap list.nodeMap.lookup
  rw [filterMap_append] at hperm
  rw [append_assoc, append_assoc]
  refine List.Perm.append_left before ?_
  refine (perm_append_comm.append_left (nodesOf list kept)).trans ?_
  rw [← append_assoc]
  exact hperm.append_right after

theorem isRegion (hnew : Covers kept made newKeys) :
    IsRegion before (nodesOf list kept) after (nodesOf list newKeys) := by
  have hplaced := nodup_append.mp ((h.permNodes hnew).nodup_iff.mp h.distinct)
  have hregion := nodup_append.mp hplaced.2.1
  refine ⟨(nodup_append.mp h.distinct).1, hregion.1, fun node hnode => ?_, ?_, ?_⟩
  · obtain ⟨key, hkey, hlookup⟩ := mem_filterMap.mp hnode
    have hmem := (hnew.mem key).mp (mem_append_left _ hkey)
    exact mem_filterMap.mpr ⟨key, hmem, hlookup⟩
  · intro node hnode hbefore
    exact hplaced.2.2 node hbefore node (mem_append_left _ hnode) rfl
  · intro node hnode hafter
    exact hregion.2.2 node hnode node hafter rfl

theorem inPlace_iff (hnew : Covers kept made newKeys) (start : ℕ) :
    InPlace before (nodesOf list kept) after (nodesOf list newKeys) start ↔
      newKeys = [] ∨ start = before.length ∨
        (before.length < start ∧
          (after = [] ∨ (start = before.length + 1 ∧ ∃ key ∈ newKeys.getLast?, key ∈ kept))) := by
  rcases eq_nil_or_concat newKeys with rfl | ⟨init, key, rfl⟩
  · simp [InPlace, nodesOf]
  · rw [concat_eq_append] at hnew ⊢
    have hkey : key ∈ kept ++ made := (hnew.mem key).mpr (by simp)
    obtain ⟨node, hnode⟩ := h.lookup_some hkey
    have hnodes : nodesOf list (init ++ [key]) = nodesOf list init ++ [node] := by
      simp [nodesOf, hnode]
    have hlast : node ∈ nodesOf list kept ↔ key ∈ kept := by
      refine ⟨fun hmem => ?_, fun hmem => mem_filterMap.mpr ⟨key, hmem, hnode⟩⟩
      by_contra hnot
      have hmade := (mem_append.mp hkey).resolve_left hnot
      exact (nodup_append.mp h.distinct).2.2 node
        (mem_append_right _ (mem_append_left _ hmem)) node
        (mem_filterMap.mpr ⟨key, hmade, hnode⟩) rfl
    rw [hnodes, InPlace]
    simp [hlast]

/-- Once the nodes are in place, every key has its node in the container. -/
theorem placed (hnew : Covers kept made newKeys) :
    Drawn before after unclaimed others
      { container with childNodes := before ++ (nodesOf list newKeys ++ after) }
      list newKeys [] := by
  have hperm := h.permNodes hnew
  refine ⟨rfl, ?_, ?_, ?_, ?_, ?_, ?_, h.distinctScopes, h.boundScopes, h.claimed⟩
  · rw [nodesOf_nil, append_nil]
    exact hperm.nodup_iff.mp h.distinct
  · rw [nodesOf_nil, append_nil]
    exact fun node hnode => h.bound node (hperm.mem_iff.mpr hnode)
  · intro key
    rw [h.nodeKeys, hnew.mem, append_nil]
  · intro key
    rw [h.scopeKeys, hnew.mem, append_nil]
  · rw [append_nil]
    exact hnew.distinct
  · rw [append_nil]
    exact h.scopes.trans (((h.perm hnew).filterMap list.scopeMap.lookup).append_left _)

end

theorem run_eq (container : Container) (list : ListRegion K T) (items : List T) :
    list.run container items =
      let removed := ListRegion.removeMissing container list (keysOf list.keyFn items)
      let result := removed.2.desiredNodes removed.1 (keyed list.keyFn items)
      ({ result.1.1 with
          childNodes := placeAll result.1.1.childNodes result.1.2.startOffset result.2 },
        result.1.2) :=
  congrArg (Prod.mk · _) (reconcile_eq _ _ _)

/-- A run of the effect: what is kept and made, and the nodes that
`reconcile` moves. -/
theorem run (h : Drawn before after [] others container list kept []) (items : List T)
    (hunique : (keysOf list.keyFn items).Nodup) :
    let state := list.run container items
    ∃ container' made,
      Drawn before after [] others container' state.2
        (kept.filter (· ∈ keysOf list.keyFn items)) made ∧
      Covers (kept.filter (· ∈ keysOf list.keyFn items)) made (keysOf list.keyFn items) ∧
      state.1 = { container' with
        childNodes := placeAll container'.childNodes list.startOffset
          (nodesOf state.2 (keysOf list.keyFn items)) } ∧
      SameList list state.2 ∧
      ∀ key ∈ kept, key ∈ keysOf list.keyFn items →
        state.2.nodeMap.lookup key = list.nodeMap.lookup key := by
  obtain ⟨hremoved, hsame, hkeep⟩ := h.removeMissing (keysOf list.keyFn items)
  obtain ⟨made, hmem, hmade, hsame', hnodes, hkeep'⟩ :=
    hremoved.desiredNodes (keyed list.keyFn items)
  rw [run_eq]
  refine ⟨_, made, hmade, ⟨hunique, fun key => ?_⟩, ?_, ⟨hsame'.keyFn.trans hsame.keyFn,
    hsame'.startOffset.trans hsame.startOffset⟩, fun key hkey hin => ?_⟩
  · rw [hmem]
    simp only [append_nil, mem_filter, decide_eq_true_eq]
    exact ⟨fun hor => hor.elim id And.right, .inl⟩
  · have hoffset := hsame'.startOffset.trans hsame.startOffset
    simp only [hoffset, hnodes]
    rfl
  · have hkept : key ∈ kept.filter (· ∈ keysOf list.keyFn items) ++ [] := by
      simp [hkey, hin]
    exact (hkeep' key hkept).trans (hkeep key hin)

theorem claimItem {node : Node} {rest : List Node} {key : K}
    (h : Drawn before (node :: rest) (node :: rest) others container list kept [])
    (hnew : key ∉ kept) (item : T) :
    let state := (list.renderItem container key item).1
    Drawn before rest rest others state.1 state.2 (kept ++ [key]) [] ∧ SameList list state.2 := by
  have hkeys : ∀ k, (k = key ∨ k ∈ kept ++ []) ↔ k ∈ kept ++ [key] ++ [] := fun k => by
    simp only [mem_append, mem_singleton, append_nil]
    tauto
  have hscope : container.scopes ∉ container.live :=
    fun hmem => Nat.lt_irrefl _ (h.boundScopes _ hmem)
  have hnodes : (kept ++ [key]).filterMap (list.nodeMap.insert key node).lookup
      = nodesOf list kept ++ [node] := by
    rw [filterMap_append, filterMap_lookup_insert hnew]
    simp [nodesOf]
  have hscopes : (kept ++ [key] ++ []).filterMap
      (list.scopeMap.insert key container.scopes).lookup
        = scopesOf list (kept ++ []) ++ [container.scopes] := by
    rw [append_nil, append_nil, filterMap_append, filterMap_lookup_insert hnew]
    simp [scopesOf]
  have hsplit : before ++ (nodesOf list kept ++ node :: rest)
      = before ++ (nodesOf list kept ++ [node] ++ rest) := by simp
  simp only [ListRegion.renderItem, Container.pushScope, Container.renderFn, h.claimed]
  refine ⟨⟨?_, ?_, ?_, fun k => ?_, fun k => ?_, ?_, ?_, ?_, ?_, rfl⟩, ⟨rfl, rfl⟩⟩
  · rw [nodesOf, hnodes, ← hsplit]
    exact h.children
  · rw [nodesOf, hnodes, ← hsplit]
    exact h.distinct
  · rw [nodesOf, hnodes, ← hsplit]
    exact h.bound
  · rw [AList.mem_insert, h.nodeKeys, hkeys]
  · rw [AList.mem_insert, h.scopeKeys, hkeys]
  · have hkept : kept.Nodup := by simpa using h.keys
    rw [append_nil]
    exact nodup_snoc hkept hnew
  · rw [scopesOf, hscopes, ← append_assoc]
    exact h.scopes.append_right _
  · exact nodup_snoc h.distinctScopes hscope
  · exact lt_snoc h.boundScopes

theorem claimItems {items : List (K × T)} {claimed rest : List Node}
    (h : Drawn before (claimed ++ rest) (claimed ++ rest) others container list kept [])
    (hlength : claimed.length = items.length) (hunique : (items.map Prod.fst).Nodup)
    (hnew : ∀ key ∈ items.map Prod.fst, key ∉ kept) :
    let state := items.foldl (fun state entry =>
      (ListRegion.renderItem state.1 state.2 entry.1 entry.2).1) (container, list)
    Drawn before rest rest others state.1 state.2 (kept ++ items.map Prod.fst) [] := by
  induction items generalizing container list kept claimed with
  | nil =>
    obtain rfl := eq_nil_of_length_eq_zero hlength
    simpa using h
  | cons item items ih =>
    cases claimed with
    | nil => cases hlength
    | cons node claimed =>
      obtain ⟨key, item⟩ := item
      rw [map_cons, nodup_cons] at hunique
      have hclaimed := (h.claimItem (hnew key mem_cons_self) item).1
      have hrest := ih hclaimed (Nat.succ.inj hlength) hunique.2 (by
        intro k hk hmem
        rcases mem_append.mp hmem with hmem | hmem
        · exact hnew k (mem_cons_of_mem _ hk) hmem
        · exact hunique.1 (mem_singleton.mp hmem ▸ hk))
      simpa using hrest

end Drawn

/-- The keys of a list are unique and have each its node and its scope. -/
def Part.Keyed : Part K T → Prop
  | .static _ => True
  | .region list keys => keys.Nodup ∧ (∀ key, key ∈ list.nodeMap ↔ key ∈ keys) ∧
      ∀ key, key ∈ list.scopeMap ↔ key ∈ keys

/-- A container that shows its parts, and the children still to claim. -/
structure Mounted (container : Container) (unclaimed : List Node) (parts : List (Part K T)) :
    Prop where
  children : container.childNodes = parts.flatMap Part.nodes ++ unclaimed
  distinct : container.childNodes.Nodup
  bound : ∀ n ∈ container.childNodes, n < container.nodes
  keyed : ∀ part ∈ parts, part.Keyed
  scopes : container.live.Perm (parts.flatMap Part.scopes)
  distinctScopes : container.live.Nodup
  boundScopes : ∀ s ∈ container.live, s < container.scopes
  claimed : container.unclaimed = unclaimed

namespace Mounted

variable {container : Container} {unclaimed : List Node} {parts pre post : List (Part K T)}
  {list : ListRegion K T} {keys : List K}

theorem drawn (h : Mounted container unclaimed (pre ++ .region list keys :: post)) :
    Drawn (pre.flatMap Part.nodes) (post.flatMap Part.nodes ++ unclaimed) unclaimed
      (pre.flatMap Part.scopes ++ post.flatMap Part.scopes) container list keys [] := by
  obtain ⟨hkeys, hnodeKeys, hscopeKeys⟩ : (Part.region list keys).Keyed :=
    h.keyed _ (mem_append_right _ mem_cons_self)
  have hchildren : container.childNodes = pre.flatMap Part.nodes ++
      (nodesOf list keys ++ (post.flatMap Part.nodes ++ unclaimed)) := by
    rw [h.children, flatMap_append, flatMap_cons]
    simp [Part.nodes]
  have hscopes := h.scopes
  rw [flatMap_append, flatMap_cons] at hscopes
  refine ⟨hchildren, ?_, ?_, ?_, ?_, ?_, ?_, h.distinctScopes, h.boundScopes, h.claimed⟩
  · rw [nodesOf_nil, append_nil, ← hchildren]
    exact h.distinct
  · rw [nodesOf_nil, append_nil, ← hchildren]
    exact h.bound
  · intro key
    rw [append_nil, hnodeKeys]
  · intro key
    rw [append_nil, hscopeKeys]
  · rw [append_nil]
    exact hkeys
  · rw [append_nil, append_assoc]
    exact hscopes.trans (perm_append_comm.append_left _)

theorem of_drawn (hkeyed : ∀ part ∈ pre ++ post, part.Keyed)
    (h : Drawn (pre.flatMap Part.nodes) (post.flatMap Part.nodes ++ unclaimed) unclaimed
      (pre.flatMap Part.scopes ++ post.flatMap Part.scopes) container list keys []) :
    Mounted container unclaimed (pre ++ .region list keys :: post) := by
  have hchildren := h.children
  have hdistinct := h.distinct
  have hbound := h.bound
  have hscopes := h.scopes
  rw [nodesOf_nil, append_nil, ← hchildren] at hdistinct hbound
  rw [append_nil, append_assoc] at hscopes
  refine ⟨?_, hdistinct, hbound, ?_, ?_, h.distinctScopes, h.boundScopes, h.claimed⟩
  · rw [hchildren, flatMap_append, flatMap_cons]
    simp [Part.nodes]
  · intro part hpart
    rcases mem_append.mp hpart with hpart | hpart
    · exact hkeyed part (mem_append_left _ hpart)
    rcases mem_cons.mp hpart with rfl | hpart
    · refine ⟨by simpa using h.keys, fun key => ?_, fun key => ?_⟩
      · rw [h.nodeKeys, append_nil]
      · rw [h.scopeKeys, append_nil]
    · exact hkeyed part (mem_append_right _ hpart)
  · rw [flatMap_append, flatMap_cons]
    exact hscopes.trans (perm_append_comm.append_left _)

theorem arranged (h : Mounted container [] parts) : (ListRun.mk container parts).Arranged := by
  refine ⟨by simpa using h.children, h.distinct, ?_, ?_, h.scopes, h.distinctScopes⟩
  · exact fun list keys hmem => (h.keyed _ hmem).2.1
  · exact fun list keys hmem => (h.keyed _ hmem).2.2

/-- The region's new nodes are in place exactly from these offsets, and the
nodes of kept keys are reused from any. -/
theorem update (h : Mounted container [] (pre ++ .region list keys :: post)) (items : List T)
    (hunique : (keysOf list.keyFn items).Nodup) :
    let state := list.run container items
    let newKeys := keysOf list.keyFn items
    let start := (pre.flatMap Part.nodes).length
    let inPlace := newKeys = [] ∨ list.startOffset = start ∨
      (start < list.startOffset ∧ (post.flatMap Part.nodes = [] ∨
        (list.startOffset = start + 1 ∧ ∃ key ∈ newKeys.getLast?, key ∈ keys)))
    (inPlace → Mounted state.1 [] (pre ++ .region state.2 newKeys :: post)) ∧
      ((ListRun.mk state.1 (pre ++ .region state.2 newKeys :: post)).Arranged → inPlace) ∧
      ∀ key ∈ keys, key ∈ newKeys → state.2.nodeMap.lookup key = list.nodeMap.lookup key := by
  intro state newKeys start inPlace
  have hdrawn := h.drawn
  rw [append_nil] at hdrawn
  obtain ⟨container', made, hmade, hcovers, hstate, hsame, hreuse⟩ := hdrawn.run items hunique
  have hinPlace : InPlace (pre.flatMap Part.nodes)
      (nodesOf state.2 (keys.filter (· ∈ newKeys))) (post.flatMap Part.nodes)
      (nodesOf state.2 newKeys) list.startOffset ↔ inPlace := by
    rw [hmade.inPlace_iff hcovers]
    have hlast : (∃ key ∈ newKeys.getLast?, key ∈ keys.filter (· ∈ newKeys)) ↔
        ∃ key ∈ newKeys.getLast?, key ∈ keys := by
      refine exists_congr fun key => and_congr_right fun hkey => ?_
      have hmem : key ∈ newKeys := mem_of_getLast? hkey
      simp [hmem]
    rw [hlast]
  refine ⟨fun hcareful => ?_, fun harranged => ?_, hreuse⟩
  · have hplaced := placeAll_region (hmade.isRegion hcovers) (hinPlace.mpr hcareful)
    have hfinal := hmade.placed hcovers
    rw [← hplaced, ← hmade.children, ← hstate] at hfinal
    have hother : ∀ part ∈ pre ++ post, part.Keyed := by
      intro part hpart
      refine h.keyed part ?_
      rcases mem_append.mp hpart with hpart | hpart
      · exact mem_append_left _ hpart
      · exact mem_append_right _ (mem_cons_of_mem _ hpart)
    refine of_drawn hother ?_
    rw [append_nil]
    exact hfinal
  · refine hinPlace.mp ((placeAll_eq_iff (hmade.isRegion hcovers)).mp ?_)
    have hchildren := harranged.children
    rw [← hmade.children]
    have hplaced : state.1.childNodes = placeAll container'.childNodes list.startOffset
        (nodesOf state.2 newKeys) := by
      show (list.run container items).1.childNodes = _
      rw [hstate]
    rw [← hplaced]
    refine hchildren.trans ?_
    rw [flatMap_append, flatMap_cons]
    rfl

/-- A region that has no items yet, behind all other parts. -/
theorem empty (h : Mounted container unclaimed parts) (keyFn : T → ℕ → K) (startOffset : ℕ) :
    Mounted container unclaimed
      (parts ++ [.region { keyFn := keyFn, startOffset := startOffset } []]) := by
  refine ⟨?_, h.distinct, h.bound, ?_, ?_, h.distinctScopes, h.boundScopes, h.claimed⟩
  · rw [h.children, flatMap_append]
    simp [Part.nodes, nodesOf_nil]
  · intro part hpart
    rcases mem_append.mp hpart with hpart | hpart
    · exact h.keyed part hpart
    · obtain rfl := mem_singleton.mp hpart
      refine ⟨nodup_nil, fun key => ?_, fun key => ?_⟩
      · exact iff_of_false (AList.notMem_empty key) not_mem_nil
      · exact iff_of_false (AList.notMem_empty key) not_mem_nil
  · rw [flatMap_append]
    simpa [Part.scopes, scopesOf] using h.scopes

theorem keyed_static (h : Mounted container unclaimed parts) (node : Node) :
    ∀ part ∈ parts ++ [.static node], part.Keyed := by
  intro part hpart
  rcases mem_append.mp hpart with hpart | hpart
  · exact h.keyed part hpart
  · exact mem_singleton.mp hpart ▸ trivial

theorem append (h : Mounted container [] parts) {child : Child K T}
    (hunique : ListRun.UniqueChild child) :
    let run := (ListRun.mk container parts).append child
    Mounted run.container [] run.parts := by
  cases child with
  | static =>
    have hfresh : container.nodes ∉ container.childNodes :=
      fun hmem => Nat.lt_irrefl _ (h.bound _ hmem)
    have happend : moveBefore container.childNodes container.nodes none
        = container.childNodes ++ [container.nodes] := by
      rw [moveBefore, erase_of_not_mem hfresh]
    have hchildren := h.children
    rw [append_nil] at hchildren
    simp only [ListRun.append, Container.renderFn, h.claimed, Container.appendChild, happend]
    refine ⟨?_, ?_, ?_, ?_, ?_, h.distinctScopes, h.boundScopes, rfl⟩
    · rw [append_nil, flatMap_append, hchildren]
      rfl
    · exact nodup_snoc h.distinct hfresh
    · exact lt_snoc h.bound
    · exact h.keyed_static _
    · rw [flatMap_append]
      simpa [Part.scopes] using h.scopes
  | list keyFn items =>
    have hempty := h.empty keyFn container.childNodes.length
    refine (hempty.update items hunique).1 (.inr (.inl ?_))
    have hchildren := h.children
    rw [append_nil] at hchildren
    exact congrArg List.length hchildren

theorem claim (h : Mounted container unclaimed parts) {child : Child K T}
    (hunique : ListRun.UniqueChild child) (hsize : child.size ≤ unclaimed.length) :
    let run := (ListRun.mk container parts).claim child
    Mounted run.container (unclaimed.drop child.size) run.parts := by
  cases child with
  | static =>
    cases unclaimed with
    | nil => cases hsize
    | cons node rest =>
      simp only [ListRun.claim, Container.renderFn, h.claimed]
      refine ⟨?_, h.distinct, h.bound, h.keyed_static node, ?_, h.distinctScopes,
        h.boundScopes, rfl⟩
      · rw [flatMap_append, append_assoc]
        exact h.children
      · rw [flatMap_append]
        simpa [Part.scopes] using h.scopes
  | list keyFn items =>
    have hempty := (h.empty keyFn 0).drawn
    rw [flatMap_nil, nil_append, ← take_append_drop items.length unclaimed]
      at hempty
    have hlength : (unclaimed.take items.length).length = (Ui.Dom.keyed keyFn items).length := by
      rw [length_take, Ui.Dom.keyed, length_mapIdx]
      exact Nat.min_eq_left hsize
    have hclaimed := hempty.claimItems hlength hunique fun _ _ => not_mem_nil
    refine of_drawn ?_ (?_ : Drawn _ _ _ _ _ _ _ _)
    · intro part hpart
      rw [append_nil] at hpart
      exact h.keyed part hpart
    · rw [flatMap_nil, nil_append]
      exact { hclaimed with }

theorem claims {children : List (Child K T)} {run : ListRun K T}
    (h : Mounted run.container unclaimed run.parts)
    (hunique : ∀ child ∈ children, ListRun.UniqueChild child)
    (hsize : unclaimed.length = (children.map Child.size).sum) :
    Mounted (children.foldl ListRun.claim run).container []
      (children.foldl ListRun.claim run).parts := by
  induction children generalizing run unclaimed with
  | nil =>
    obtain rfl := eq_nil_of_length_eq_zero hsize
    exact h
  | cons child children ih =>
    rw [map_cons, sum_cons] at hsize
    have hclaimed := h.claim (hunique child mem_cons_self) (by omega)
    refine ih hclaimed (fun c hc => hunique c (mem_cons_of_mem _ hc)) ?_
    rw [length_drop]
    omega

end Mounted

namespace ListRun

theorem mounted_hydrated {children : List (Child K T)}
    (hunique : ∀ child ∈ children, UniqueChild child) :
    Mounted (hydrated children).container [] (hydrated children).parts := by
  let size := (children.map Child.size).sum
  have hssr : Mounted (Container.ssr size) (List.range size) ([] : List (Part K T)) := by
    refine ⟨rfl, nodup_range, fun n hn => mem_range.mp hn, ?_, List.Perm.refl _,
      nodup_nil, ?_, rfl⟩
    · exact fun part hpart => absurd hpart not_mem_nil
    · exact fun s hs => absurd hs not_mem_nil
  exact @Mounted.claims _ _ _ (List.range size) children ⟨.ssr size, []⟩ hssr hunique
    length_range

theorem update_of_no_region {run : ListRun K T} {position : ℕ} {items : List T}
    (h : ∀ list keys, run.parts[position]? ≠ some (.region list keys)) :
    run.step (.update position items) = run := by
  rw [step, update]
  split
  · next list keys hpart => exact absurd hpart (h list keys)
  · rfl

/-- A step of a mounted container arranges it exactly if it is careful, and
then leaves it mounted. -/
theorem step_mounted {run : ListRun K T} (h : Mounted run.container [] run.parts)
    {step : ListStep K T} (hunique : run.UniqueKeys step) :
    (run.Arranges step ↔ run.Careful step) ∧
      (run.Careful step → Mounted (run.step step).container [] (run.step step).parts) := by
  cases step with
  | append child =>
    have happend := h.append hunique
    exact ⟨iff_of_true ⟨happend.arranged, trivial⟩ trivial, fun _ => happend⟩
  | update position items =>
    by_cases hregion : ∃ list keys, run.parts[position]? = some (.region list keys)
    · obtain ⟨list, keys, hpart⟩ := hregion
      have hlt : position < run.parts.length := (List.getElem?_eq_some_iff.mp hpart).1
      have hparts : run.parts =
          run.parts.take position ++ .region list keys :: run.parts.drop (position + 1) := by
        have hget : run.parts[position] = .region list keys :=
          (List.getElem?_eq_some_iff.mp hpart).2
        rw [← hget, ← drop_eq_getElem_cons, take_append_drop]
      have hkeys : keysOf list.keyFn items = [] ↔ items = [] := by simp [keysOf, keyed]
      rw [hparts] at h
      obtain ⟨hmounted, hneeds, hreuse⟩ := h.update items (hunique list keys hpart)
      rw [hkeys] at hmounted hneeds
      have hstep : run.step (.update position items) =
          ⟨(list.run run.container items).1, run.parts.take position ++
            .region (list.run run.container items).2 (keysOf list.keyFn items) ::
              run.parts.drop (position + 1)⟩ := by
        simp only [ListRun.step, ListRun.update, hpart, set_eq_take_append_cons_drop, hlt,
          if_true]
      have hcareful : run.Careful (.update position items) ↔ items = [] ∨ _ :=
        ⟨fun hall => hall list keys hpart, fun hone list' keys' hpart' => by
          obtain ⟨rfl, rfl⟩ := Part.region.inj (Option.some.inj (hpart.symm.trans hpart'))
          exact hone⟩
      have hreuses : run.Reuses (.update position items) := by
        intro list₁ keys₁ list₂ keys₂ hbefore hafter
        obtain ⟨rfl, rfl⟩ := Part.region.inj (Option.some.inj (hpart.symm.trans hbefore))
        have hupdated : (run.update position items).parts[position]? =
            some (.region (list.run run.container items).2 (keysOf list.keyFn items)) := by
          simp only [ListRun.update, hpart, getElem?_set_self hlt]
        obtain ⟨rfl, rfl⟩ := Part.region.inj (Option.some.inj (hupdated.symm.trans hafter))
        exact hreuse
      rw [Arranges, hstep, hcareful]
      exact ⟨⟨fun harranges => hneeds harranges.1,
        fun hin => ⟨(hmounted hin).arranged, hreuses⟩⟩, hmounted⟩
    · have hno : ∀ list keys, run.parts[position]? ≠ some (.region list keys) :=
        fun list keys heq => hregion ⟨list, keys, heq⟩
      rw [Arranges, update_of_no_region hno]
      exact ⟨iff_of_true ⟨h.arranged, fun _ _ _ _ heq => absurd heq (hno _ _)⟩
        fun _ _ heq => absurd heq (hno _ _), fun _ => h⟩

theorem careful_run_arranged (children : List (Child K T)) (steps : List (ListStep K T))
    (hchildren : ∀ child ∈ children, UniqueChild child)
    (hsteps : Along step UniqueKeys (hydrated children) steps) :
    Along step Arranges (hydrated children) steps ↔
      Along step Careful (hydrated children) steps := by
  have hiff := @along_iff _ _ (step : ListRun K T → ListStep K T → ListRun K T)
    (fun run => Mounted run.container [] run.parts)
    (fun run step => run.UniqueKeys step ∧ run.Careful step)
    (fun run step => run.UniqueKeys step ∧ run.Arranges step)
    (fun run step h => and_congr_right fun hunique => (step_mounted h hunique).1)
    (fun run step h hcareful => (step_mounted h hcareful.1).2 hcareful.2) _ steps
    (mounted_hydrated hchildren)
  rw [along_and, along_and] at hiff
  exact (and_congr_right_iff.mp hiff) hsteps

/-- A list after a title changes its items while a list follows it. -/
theorem list_between_siblings_arranged :
    Along step Arranges
      (hydrated ([.static, .list (fun item _ => item) [1, 2], .list (fun item _ => item) []] :
        List (Child ℕ ℕ)))
      [.append .static, .update 1 [2, 3, 1], .update 2 []] := by
  refine (careful_run_arranged _ _ ?_ ?_).mpr ?_
  · decide
  · decide
  · decide

/-- Two lists in one container: the first grows, and the next update of the
second moves its item into the first. -/
theorem second_list_enters_first :
    ¬ ∀ (children : List (Child ℕ ℕ)) (steps : List (ListStep ℕ ℕ)),
      (∀ child ∈ children, UniqueChild child) →
      Along step UniqueKeys (hydrated children) steps →
        Along step Arranges (hydrated children) steps := by
  intro h
  have hrun := h [] [.append (.list (fun item _ => item) [0]),
    .append (.list (fun item _ => item) [10]), .update 0 [0, 1], .update 1 [10]] (by simp) ?_
  · have hchildren := hrun.2.2.2.1.1.children
    revert hchildren
    decide
  · decide

end ListRun

end Vertz.Spec
