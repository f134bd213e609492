import Vertz.Proofs.GraphEdges

/-!
# `Vertz.Proofs.GraphRuns`: the structure of the signal graph along a run

`GraphOk` is the invariant: the free list is exact, an edge into a live
subscriber is stored at both ends, and every id that an edge names has a
slot. One lemma for each way an operation changes the graph says that it
keeps `GraphOk`.
-/

namespace Vertz.Proofs

open Vertz.Spec.GraphRuntime hiding new
open Vertz.Native Vertz.Native.SignalGraph Vertz.Spec Vertz.Lib List

variable {V F : Type}

variable {g g' : SignalGraph V F}

structure GraphOk (g : SignalGraph V F) : Prop where
  freeExact : FreeListExact g
  /-- Dead subscribers may still be named, live ones name the source back. -/
  symmetric : ∀ source sub, IsLive g sub →
    (sub ∈ g.subscribersOf source ↔ source ∈ g.sourcesOf sub)
  /-- A subscriber that is named has a slot. -/
  named : ∀ source sub, sub ∈ g.subscribersOf source → kindAt g sub ≠ none

variable {id : ℕ}

theorem isLive_of_isSource (h : IsSource g id) : IsLive g id := by
  cases h with
  | inl h => exact ⟨_, h, by decide⟩
  | inr h => exact ⟨_, h, by decide⟩

theorem not_isLive_of_empty (h : kindAt g id = some .empty) : ¬ IsLive g id := by
  intro hlive
  obtain ⟨kind, hkind, hne⟩ := hlive
  rw [h, Option.some.injEq] at hkind
  exact hne hkind.symm

theorem isLive_of_ne (hnone : kindAt g id ≠ none) (hempty : kindAt g id ≠ some .empty) :
    IsLive g id := by
  cases h : kindAt g id with
  | none => exact absurd h hnone
  | some kind => exact ⟨kind, h, fun hk => hempty (by rw [h, hk])⟩

theorem hasSlot_of_isLive (h : IsLive g id) : kindAt g id ≠ none := by
  obtain ⟨kind, hkind, _⟩ := h
  simp [hkind]

theorem GraphOk.edgesSymmetric (h : GraphOk g) : EdgesSymmetric g :=
  fun source sub _ hsub => h.symmetric source sub hsub

theorem new_ok : GraphOk (new : SignalGraph V F) := by
  refine ⟨⟨nodup_nil, fun id => ?_⟩, fun source sub hlive => ?_, fun source sub hmem => ?_⟩
  · simp [new, kindAt]
  · obtain ⟨kind, hkind, _⟩ := hlive
    simp [new, kindAt] at hkind
  · simp [new, subscribersOf] at hmem

/-! ### What each change keeps -/

theorem isLive_congr (hkinds : ∀ id, kindAt g' id = kindAt g id) (id : ℕ) :
    IsLive g' id ↔ IsLive g id := by
  unfold IsLive
  rw [hkinds id]

theorem GraphOk.of_sameShape (h : GraphOk g) (hshape : SameShape g g') : GraphOk g' := by
  refine ⟨⟨?_, fun id => ?_⟩, fun source sub hlive => ?_, fun source sub hmem => ?_⟩
  · rw [hshape.free]
    exact h.freeExact.1
  · rw [hshape.free, hshape.kinds]
    exact h.freeExact.2 id
  · rw [hshape.subscribers, hshape.sources]
    exact h.symmetric source sub ((isLive_congr hshape.kinds sub).mp hlive)
  · rw [hshape.subscribers] at hmem
    rw [hshape.kinds]
    exact h.named source sub hmem

/-- A read can be tracked for every slot that is not a signal's. -/
theorem GraphOk.trackDependency (h : GraphOk g) {source sub : ℕ} (hslot : kindAt g sub ≠ none)
    (hsub : IsSource g source → kindAt g sub ≠ some .signal) :
    GraphOk (g.trackDependency source sub) := by
  have hkinds := kindAt_trackDependency g source sub
  refine ⟨⟨?_, fun id => ?_⟩, fun j k hlive => ?_, fun j k hmem => ?_⟩
  · rw [freeList_trackDependency]
    exact h.freeExact.1
  · rw [freeList_trackDependency, hkinds]
    exact h.freeExact.2 id
  · have hk : IsLive g k := (isLive_congr hkinds k).mp hlive
    have hsym := h.symmetric j k hk
    rw [mem_subscribersOf_trackDependency, mem_sourcesOf_trackDependency, hsym]
    constructor
    · intro hold
      cases hold with
      | inl hold => exact .inl hold
      | inr hnew =>
        obtain ⟨rfl, rfl, hsource⟩ := hnew
        by_cases hmem : k ∈ g.subscribersOf j
        · exact .inl (hsym.mp hmem)
        · -- a live slot that is no signal's is a subscriber's
          have hkind : IsSubscriber g k := by
            obtain ⟨kind, hkind, hne⟩ := hk
            cases kind with
            | signal => exact absurd hkind (hsub hsource)
            | computed => exact .inl hkind
            | effect => exact .inr hkind
            | empty => exact absurd rfl hne
          exact .inr ⟨rfl, rfl, hsource, hkind, hmem⟩
    · intro hold
      cases hold with
      | inl hold => exact .inl hold
      | inr hnew => exact .inr ⟨hnew.1, hnew.2.1, hnew.2.2.1⟩
  · rw [hkinds]
    rw [mem_subscribersOf_trackDependency] at hmem
    cases hmem with
    | inl hold => exact h.named j k hold
    | inr hnew => rw [hnew.2.1]; exact hslot

theorem GraphOk.clearSources (h : GraphOk g) (hid : IsSubscriber g id) :
    GraphOk (g.clearSources id) := by
  have hkinds := kindAt_clearSources g id
  refine ⟨⟨?_, fun j => ?_⟩, fun j k hlive => ?_, fun j k hmem => ?_⟩
  · rw [freeList_clearSources]
    exact h.freeExact.1
  · rw [freeList_clearSources, hkinds]
    exact h.freeExact.2 j
  · have hsym := h.symmetric j k ((isLive_congr hkinds k).mp hlive)
    rw [mem_subscribersOf_clearSources, sourcesOf_clearSources g hid, hsym]
    by_cases hk : id = k
    · subst hk
      simp
    · simp [hk, Ne.symm hk]
  · rw [hkinds]
    exact h.named j k ((mem_subscribersOf_clearSources g id j k).mp hmem).1

theorem GraphOk.dispose (h : GraphOk g) (hid : kindAt g id ≠ some .empty) :
    GraphOk (g.dispose id) := by
  by_cases hnone : kindAt g id = none
  · rw [dispose_of_none hnone]
    exact h
  have hlive : IsLive g id := isLive_of_ne hnone hid
  refine ⟨⟨?_, fun j => ?_⟩, fun j k hk => ?_, fun j k hmem => ?_⟩
  · rw [freeList_dispose hnone]
    exact nodup_cons.mpr ⟨fun hmem => hid ((h.freeExact.2 id).mp hmem), h.freeExact.1⟩
  · rw [freeList_dispose hnone, kindAt_dispose hnone, mem_cons, h.freeExact.2 j]
    by_cases hj : id = j
    · simp [hj]
    · simp [hj, Ne.symm hj]
  · have hne : id ≠ k := by
      intro heq
      refine not_isLive_of_empty ?_ hk
      rw [kindAt_dispose hnone, if_pos heq]
    have hk' : IsLive g k := by
      obtain ⟨kind, hkind, hkne⟩ := hk
      rw [kindAt_dispose hnone, if_neg hne] at hkind
      exact ⟨kind, hkind, hkne⟩
    have hsym := h.symmetric j k hk'
    rw [mem_subscribersOf_dispose hnone, mem_sourcesOf_dispose hnone, hsym]
    constructor
    · intro hold
      exact ⟨hne, hold.2.1, fun hj => hold.1 hj.1.symm⟩
    · intro hold
      refine ⟨fun hj => hold.2.2 ⟨hj.symm, ?_⟩, hold.2.1, fun hki => hne hki.1.symm⟩
      rw [hj]
      exact hsym.mpr hold.2.1
  · rw [mem_subscribersOf_dispose hnone] at hmem
    rw [kindAt_dispose hnone]
    split
    · simp
    · exact h.named j k hmem.2.1

theorem GraphOk.disposeEffect (h : GraphOk g) (hid : kindAt g id ≠ some .empty) :
    GraphOk (g.disposeEffect id) := by
  refine (h.of_sameShape (setDisposed_sameShape g id)).dispose ?_
  rwa [(setDisposed_sameShape g id).kinds]

/-- A node without edges. -/
def IsFresh (node : SignalNode V F) : Prop :=
  kindOf node ≠ .empty ∧ node.subscribers = [] ∧ node.sources = []

theorem allocSlot_reuse {rest : List ℕ} (hfree : g.freeList = id :: rest) (node : SignalNode V F) :
    g.allocSlot node = (id, { g with nodes := g.nodes.set id node, freeList := rest }) := by
  unfold allocSlot
  rw [hfree]

theorem allocSlot_push (hfree : g.freeList = []) (node : SignalNode V F) :
    g.allocSlot node = (g.nodes.length % 2 ^ 32,
      { g with nodes := g.nodes ++ [node], effectScheduled := g.effectScheduled ++ [false] }) := by
  unfold allocSlot
  rw [hfree]

section Push

/-! A slot added at the end. -/

variable {node : SignalNode V F}

theorem getElem?_push {nodes : List (SignalNode V F)} (j : ℕ) :
    (nodes ++ [node])[j]? = if j = nodes.length then some node else nodes[j]? := by
  by_cases hj : j = nodes.length
  · simp [hj]
  · rw [if_neg hj]
    by_cases hlt : j < nodes.length
    · exact getElem?_append_left hlt
    · rw [getElem?_eq_none (by simp; omega), getElem?_eq_none (by omega)]

theorem kindAt_push (hg : g'.nodes = g.nodes ++ [node]) (j : ℕ) :
    kindAt g' j = if j = g.nodes.length then some (kindOf node) else kindAt g j := by
  unfold kindAt
  rw [hg, getElem?_push]
  split <;> rfl

theorem subscribersOf_push (hg : g'.nodes = g.nodes ++ [node]) (h : node.subscribers = []) (j : ℕ) :
    g'.subscribersOf j = g.subscribersOf j := by
  unfold subscribersOf
  rw [hg, getElem?_push]
  by_cases hj : j = g.nodes.length
  · simp [hj, h]
  · simp [hj]

theorem sourcesOf_push (hg : g'.nodes = g.nodes ++ [node]) (h : node.sources = []) (j : ℕ) :
    g'.sourcesOf j = g.sourcesOf j := by
  unfold sourcesOf
  rw [hg, getElem?_push]
  by_cases hj : j = g.nodes.length
  · simp [hj, h]
  · simp [hj]

end Push

variable {node : SignalNode V F}

/-- A free slot that nothing names any more gets a fresh node. -/
theorem GraphOk.reuse (h : GraphOk g) {rest : List ℕ} (hfree : g.freeList = id :: rest)
    (hunnamed : ∀ source, id ∉ g.subscribersOf source) (hnode : IsFresh node)
    (hg : g'.nodes = g.nodes.set id node) (hg' : g'.freeList = rest) : GraphOk g' := by
  have hempty : kindAt g id = some .empty := (h.freeExact.2 id).mp (by simp [hfree])
  have hslot : kindAt g id ≠ none := by simp [hempty]
  have hnodup := h.freeExact.1
  rw [hfree, nodup_cons] at hnodup
  have hnil : g.subscribersOf id = [] :=
    subscribersOf_eq_nil (by simp [hempty]) (by simp [hempty])
  have hkinds := kindAt_set hg hslot
  have hsubs := subscribersOf_set hg hnode.2.1
  have hsrcs := sourcesOf_set hg hnode.2.2
  refine ⟨⟨hg' ▸ hnodup.2, fun j => ?_⟩, fun j k hlive => ?_, fun j k hmem => ?_⟩
  · have hold := h.freeExact.2 j
    rw [hfree, mem_cons] at hold
    rw [hg', hkinds]
    by_cases hj : id = j
    · subst hj
      simp [hnodup.1, hnode.1]
    · rw [if_neg hj, ← hold]
      simp [Ne.symm hj]
  · rw [hsubs, hsrcs]
    by_cases hk : id = k
    · subst hk
      by_cases hj : id = j
      · simp [hj]
      · simp [hj, hunnamed j]
    · have hk' : IsLive g k := by
        obtain ⟨kind, hkk, hne⟩ := hlive
        rw [hkinds, if_neg hk] at hkk
        exact ⟨kind, hkk, hne⟩
      rw [if_neg hk, ← h.symmetric j k hk']
      by_cases hj : id = j
      · subst hj
        simp [hnil]
      · rw [if_neg hj]
  · rw [hsubs] at hmem
    rw [hkinds]
    by_cases hj : id = j
    · simp [hj] at hmem
    · rw [if_neg hj] at hmem
      split
      · simp
      · exact h.named j k hmem

/-- A fresh node gets a new slot. -/
theorem GraphOk.push (h : GraphOk g) (hnode : IsFresh node) (hg : g'.nodes = g.nodes ++ [node])
    (hg' : g'.freeList = g.freeList) : GraphOk g' := by
  have hnone : kindAt g g.nodes.length = none := kindAt_eq_none.mpr (Nat.le_refl _)
  have hkinds := kindAt_push hg
  have hsubs := subscribersOf_push hg hnode.2.1
  have hsrcs := sourcesOf_push hg hnode.2.2
  refine ⟨⟨hg' ▸ h.freeExact.1, fun j => ?_⟩, fun j k hlive => ?_, fun j k hmem => ?_⟩
  · rw [hg', hkinds, h.freeExact.2 j]
    by_cases hj : j = g.nodes.length
    · simp [hj, hnone, hnode.1]
    · rw [if_neg hj]
  · rw [hsubs, hsrcs]
    by_cases hk : k = g.nodes.length
    · have hnotsub : k ∉ g.subscribersOf j := fun hmem => h.named j k hmem (hk ▸ hnone)
      have hnil : g.sourcesOf k = [] :=
        sourcesOf_eq_nil (by rw [hk, hnone]; simp) (by rw [hk, hnone]; simp)
      simp [hnotsub, hnil]
    · obtain ⟨kind, hkk, hne⟩ := hlive
      rw [hkinds, if_neg hk] at hkk
      exact h.symmetric j k ⟨kind, hkk, hne⟩
  · rw [hsubs] at hmem
    rw [hkinds]
    split
    · simp
    · exact h.named j k hmem

theorem canAllocate_cons {rest : List ℕ} (hfree : g.freeList = id :: rest) :
    CanAllocate g ↔ ∀ source, id ∉ g.subscribersOf source := by
  unfold CanAllocate
  rw [hfree]

theorem canAllocate_nil (hfree : g.freeList = []) :
    CanAllocate g ↔ g.nodes.length < 2 ^ 32 := by
  unfold CanAllocate
  rw [hfree]

theorem GraphOk.allocSlot (h : GraphOk g) (hcan : CanAllocate g) (hnode : IsFresh node)
    : GraphOk (g.allocSlot node).2 := by
  cases hfree : g.freeList with
  | cons id rest =>
    rw [allocSlot_reuse hfree]
    exact h.reuse hfree ((canAllocate_cons hfree).mp hcan) hnode rfl rfl
  | nil =>
    rw [allocSlot_push hfree]
    exact h.push hnode rfl rfl

/-- With 32 bits to spare the slot taken is not a live node's. -/
theorem GraphOk.allocSlot_free (h : GraphOk g) (hcan : CanAllocate g) (node : SignalNode V F) :
    ¬ IsLive g (g.allocSlot node).1 := by
  cases hfree : g.freeList with
  | cons id rest =>
    rw [allocSlot_reuse hfree]
    exact not_isLive_of_empty ((h.freeExact.2 id).mp (by simp [hfree]))
  | nil =>
    rw [allocSlot_push hfree]
    intro hlive
    apply hasSlot_of_isLive hlive
    show kindAt g (g.nodes.length % 2 ^ 32) = none
    rw [Nat.mod_eq_of_lt ((canAllocate_nil hfree).mp hcan)]
    exact kindAt_eq_none.mpr (Nat.le_refl _)

/-! ### What each operation does -/

theorem tryRead_of_ready (h : isReady g id = true) : (g.tryRead id).2 = g.trackRead id := by
  unfold isReady at h
  unfold tryRead
  split at h
  · rename_i hnode
    rw [hnode]
  · rename_i hnode
    rw [hnode]
  · simp at h

theorem tryRead_of_not_ready (h : isReady g id = false) : (g.tryRead id).2 = g := by
  unfold isReady at h
  unfold tryRead
  split <;> simp_all

theorem beginEvaluateComputed_cases (g : SignalGraph V F) (id : ℕ) :
    (∃ fn, kindAt g id = some .computed ∧ g.beginEvaluateComputed id
        = (.ok ⟨fn, g.trackingSubscriber⟩,
          { (g.modifyNode id (.setState .computing)).clearSources id with
            trackingSubscriber := some id }))
      ∨ ∃ error, g.beginEvaluateComputed id = (.error error, g) := by
  unfold beginEvaluateComputed
  split
  · rename_i fn _ _ _ _ hnode
    split
    · exact .inr ⟨_, rfl⟩
    · exact .inl ⟨fn, by simp [kindAt, hnode, kindOf], rfl⟩
  · exact .inr ⟨_, rfl⟩

theorem beginRunEffect_cases (g : SignalGraph V F) (id : ℕ) :
    (∃ fn, kindAt g id = some .effect ∧ g.beginRunEffect id
        = (some ⟨fn, g.trackingSubscriber⟩,
          { g.clearSources id with trackingSubscriber := some id }))
      ∨ g.beginRunEffect id = (none, g) := by
  unfold beginRunEffect
  split
  · rename_i fn _ _ hnode
    split
    · exact .inr rfl
    · exact .inl ⟨fn, by simp [kindAt, hnode, kindOf], rfl⟩
  · exact .inr rfl

theorem writeSignalNoFlush_sameShape [DecidableEq V] (g : SignalGraph V F) (id : ℕ)
    (newValue : V) : SameShape g (g.writeSignalNoFlush id newValue).2
      ∧ (g.writeSignalNoFlush id newValue).2.trackingSubscriber = g.trackingSubscriber := by
  unfold writeSignalNoFlush
  split
  · exact ⟨SameShape.refl g, rfl⟩
  · split
    · exact ⟨SameShape.refl g, rfl⟩
    · exact ⟨(setValue_sameShape g id newValue).trans (notifySubscribers_sameShape _ id),
        trackingSubscriber_notifySubscribers _ id⟩
  all_goals exact ⟨SameShape.refl g, rfl⟩

theorem storeResult_sameShape [DecidableEq V] (g : SignalGraph V F) (id : ℕ) (newValue : V)
    (oldTracking : Option ℕ) : SameShape g (g.storeResult id newValue oldTracking) := by
  have hrestored : SameShape g { g with trackingSubscriber := oldTracking } :=
    SameShape.of_nodes rfl rfl
  have hcached := hrestored.trans (setCached_sameShape _ id newValue)
  unfold storeResult
  simp only
  split
  · exact hcached.trans (notifySubscribers_sameShape _ id)
  · exact hcached

theorem trackingSubscriber_storeResult [DecidableEq V] (g : SignalGraph V F) (id : ℕ)
    (newValue : V) (oldTracking : Option ℕ) :
    (g.storeResult id newValue oldTracking).trackingSubscriber = oldTracking := by
  unfold storeResult
  simp only
  split
  · exact trackingSubscriber_notifySubscribers _ id
  · rfl

/-! ### Runs -/

/-- The subscriber, if there is one, has a slot. -/
def HasSlot (g : SignalGraph V F) (subscriber : Option ℕ) : Prop :=
  ∀ sub, subscriber = some sub → kindAt g sub ≠ none

/-- The invariant of a run: every subscriber that is active, or will be
again, has a slot. -/
structure RuntimeOk (rt : GraphRuntime V F) : Prop where
  graph : GraphOk rt.graph
  tracking : HasSlot rt.graph rt.graph.trackingSubscriber
  evaluating : ∀ entry ∈ rt.evaluating, HasSlot rt.graph entry.2.oldTracking
  running : ∀ prep ∈ rt.running, HasSlot rt.graph prep.oldTracking

/-- No slot is ever removed. -/
def KeepsSlots (g g' : SignalGraph V F) : Prop :=
  ∀ id, kindAt g id ≠ none → kindAt g' id ≠ none

theorem HasSlot.keep {subscriber : Option ℕ} (h : HasSlot g subscriber)
    (hkeeps : KeepsSlots g g') : HasSlot g' subscriber :=
  fun sub hsub => hkeeps sub (h sub hsub)

theorem keepsSlots_of_kinds (h : ∀ id, kindAt g' id = kindAt g id) : KeepsSlots g g' := by
  intro id hid
  rwa [h id]

theorem keepsSlots_dispose (g : SignalGraph V F) (id : ℕ) : KeepsSlots g (g.dispose id) := by
  by_cases hnone : kindAt g id = none
  · rw [dispose_of_none hnone]
    exact fun _ h => h
  · intro j hj
    rw [kindAt_dispose hnone]
    split
    · simp
    · exact hj

theorem keepsSlots_allocSlot (h : GraphOk g) (node : SignalNode V F) :
    KeepsSlots g (g.allocSlot node).2 := by
  intro j hj
  cases hfree : g.freeList with
  | cons id rest =>
    have hempty : kindAt g id = some .empty := (h.freeExact.2 id).mp (by simp [hfree])
    rw [allocSlot_reuse hfree, kindAt_set rfl (by simp [hempty])]
    split
    · simp
    · exact hj
  | nil =>
    rw [allocSlot_push hfree, kindAt_push rfl]
    split
    · simp
    · exact hj

theorem trackingSubscriber_allocSlot (g : SignalGraph V F) (node : SignalNode V F) :
    (g.allocSlot node).2.trackingSubscriber = g.trackingSubscriber := by
  unfold allocSlot
  split <;> rfl

theorem trackingSubscriber_dispose (g : SignalGraph V F) (id : ℕ) :
    (g.dispose id).trackingSubscriber = g.trackingSubscriber := by
  unfold dispose
  split
  · rfl
  · exact (foldl_modifyNode_inv (fun g => g.trackingSubscriber) (fun _ _ => rfl) _ _).trans
      (foldl_modifyNode_inv (fun g => g.trackingSubscriber) (fun _ _ => rfl) _ _)

theorem trackingSubscriber_trackRead (g : SignalGraph V F) (id : ℕ) :
    (g.trackRead id).trackingSubscriber = g.trackingSubscriber := by
  unfold trackRead trackDependency
  split
  · split <;> rfl
  · rfl

theorem kindAt_trackRead (g : SignalGraph V F) (id j : ℕ) :
    kindAt (g.trackRead id) j = kindAt g j := by
  unfold trackRead
  split
  · exact kindAt_trackDependency g id _ j
  · rfl

theorem GraphOk.trackRead (h : GraphOk g) (hslot : HasSlot g g.trackingSubscriber)
    (hcan : CanTrack g id g.trackingSubscriber) : GraphOk (g.trackRead id) := by
  unfold SignalGraph.trackRead
  split
  · rename_i sub hsub
    exact h.trackDependency (hslot sub hsub) (fun hsource => hcan hsource sub hsub)
  · exact h

variable {rt : GraphRuntime V F}

theorem RuntimeOk.step (h : RuntimeOk rt) (hg : GraphOk g') (hkeeps : KeepsSlots rt.graph g')
    (htracking : g'.trackingSubscriber = rt.graph.trackingSubscriber) :
    RuntimeOk { rt with graph := g' } := by
  refine ⟨hg, ?_, fun entry hentry => ?_, fun prep hprep => ?_⟩
  · show HasSlot g' g'.trackingSubscriber
    rw [htracking]
    exact h.tracking.keep hkeeps
  · exact (h.evaluating entry hentry).keep hkeeps
  · exact (h.running prep hprep).keep hkeeps

theorem RuntimeOk.step_sameShape (h : RuntimeOk rt) (hshape : SameShape rt.graph g')
    (htracking : g'.trackingSubscriber = rt.graph.trackingSubscriber) :
    RuntimeOk { rt with graph := g' } :=
  h.step (h.graph.of_sameShape hshape) (keepsSlots_of_kinds hshape.kinds) htracking

theorem RuntimeOk.alloc (h : RuntimeOk rt) (hcan : CanAllocate rt.graph) (hnode : IsFresh node) :
    RuntimeOk { rt with graph := (rt.graph.allocSlot node).2 } :=
  h.step (h.graph.allocSlot hcan hnode) (keepsSlots_allocSlot h.graph node)
    (trackingSubscriber_allocSlot rt.graph node)

theorem isFresh_signal (value : V) (hmrKey : Option String) :
    IsFresh (.signal value [] hmrKey : SignalNode V F) :=
  ⟨by simp [kindOf], rfl, rfl⟩

theorem isFresh_computed (computeFn : F) :
    IsFresh (.computed computeFn none .dirty [] [] : SignalNode V F) :=
  ⟨by simp [kindOf], rfl, rfl⟩

theorem isFresh_effect (effectFn : F) :
    IsFresh (.effect effectFn [] false : SignalNode V F) :=
  ⟨by simp [kindOf], rfl, rfl⟩

theorem RuntimeOk.read (h : RuntimeOk rt) (id : ℕ) (hcareful : Careful rt (.read id)) :
    RuntimeOk { rt with graph := (rt.graph.tryRead id).2 } := by
  cases hready : isReady rt.graph id with
  | true =>
    rw [tryRead_of_ready hready]
    exact h.step (h.graph.trackRead h.tracking (hcareful hready))
      (keepsSlots_of_kinds (kindAt_trackRead rt.graph id))
      (trackingSubscriber_trackRead rt.graph id)
  | false =>
    rw [tryRead_of_not_ready hready]
    exact h

/-- A begun run tracks its node, whose old edges are gone. -/
theorem RuntimeOk.begun (h : RuntimeOk rt) (hshape : SameShape rt.graph g)
    (hid : IsSubscriber rt.graph id) :
    GraphOk { g.clearSources id with trackingSubscriber := some id }
      ∧ KeepsSlots rt.graph { g.clearSources id with trackingSubscriber := some id } := by
  have hid' : IsSubscriber g id := by
    unfold IsSubscriber
    rwa [hshape.kinds]
  refine ⟨((h.graph.of_sameShape hshape).clearSources hid').of_sameShape
    (SameShape.of_nodes rfl rfl), keepsSlots_of_kinds fun j => ?_⟩
  exact (kindAt_clearSources g id j).trans (hshape.kinds j)

theorem hasSlot_self (h : kindAt g id ≠ none) : HasSlot g (some id) := by
  intro sub hsub
  rw [← Option.some.inj hsub]
  exact h

section

variable [DecidableEq V] (h : RuntimeOk rt)

include h

theorem RuntimeOk.beginEvaluate (id : ℕ)
    : RuntimeOk (rt.apply (.beginEvaluate id)) := by
  unfold apply
  cases beginEvaluateComputed_cases rt.graph id with
  | inl hok =>
    obtain ⟨fn, hkind, heq⟩ := hok
    obtain ⟨hg, hkeeps⟩ := h.begun (setState_sameShape rt.graph id .computing) (.inl hkind)
    simp only [heq]
    refine ⟨hg, hasSlot_self (hkeeps id (by simp [hkind])), fun entry hentry => ?_,
      fun prep hprep => (h.running prep hprep).keep hkeeps⟩
    rcases mem_cons.mp hentry with hnew | hold
    · rw [hnew]
      exact h.tracking.keep hkeeps
    · exact (h.evaluating entry hold).keep hkeeps
  | inr herr =>
    obtain ⟨error, heq⟩ := herr
    simp only [heq]
    exact h

theorem RuntimeOk.beginEffect (id : ℕ)
    : RuntimeOk (rt.apply (.beginEffect id)) := by
  unfold apply
  cases beginRunEffect_cases rt.graph id with
  | inl hok =>
    obtain ⟨fn, hkind, heq⟩ := hok
    obtain ⟨hg, hkeeps⟩ := h.begun (SameShape.refl rt.graph) (.inr hkind)
    simp only [heq]
    refine ⟨hg, hasSlot_self (hkeeps id (by simp [hkind])),
      fun entry hentry => (h.evaluating entry hentry).keep hkeeps, fun prep hprep => ?_⟩
    rcases mem_cons.mp hprep with hnew | hold
    · rw [hnew]
      exact h.tracking.keep hkeeps
    · exact (h.running prep hold).keep hkeeps
  | inr hnone =>
    simp only [hnone]
    exact h

theorem RuntimeOk.completeEvaluate (place : ℕ) (newValue : V)
    (hcareful : Careful rt (.completeEvaluate place newValue)) :
    RuntimeOk (rt.apply (.completeEvaluate place newValue)) := by
  cases hentry : rt.evaluating[place]? with
  | none =>
    simp only [apply, hentry]
    exact h
  | some entry =>
    obtain ⟨id, prep⟩ := entry
    have hshape := storeResult_sameShape rt.graph id newValue prep.oldTracking
    have htracking := trackingSubscriber_storeResult rt.graph id newValue prep.oldTracking
    have hold : HasSlot rt.graph prep.oldTracking :=
      h.evaluating _ (mem_of_getElem? hentry)
    generalize hstored : rt.graph.storeResult id newValue prep.oldTracking = stored
      at hshape htracking
    have hkeeps : KeepsSlots rt.graph (stored.trackRead id) :=
      keepsSlots_of_kinds fun j => (kindAt_trackRead stored id j).trans (hshape.kinds j)
    have hcan : CanTrack stored id stored.trackingSubscriber := by
      rw [htracking]
      unfold CanTrack
      simp only [hshape.kinds]
      exact hcareful id prep hentry
    have hslot : HasSlot stored stored.trackingSubscriber := by
      rw [htracking]
      exact hold.keep (keepsSlots_of_kinds hshape.kinds)
    simp only [apply, hentry, completeEvaluateComputed, hstored]
    refine ⟨(h.graph.of_sameShape hshape).trackRead hslot hcan, ?_, fun entry hmem => ?_,
      fun prep hprep => (h.running prep hprep).keep hkeeps⟩
    · show HasSlot (stored.trackRead id) (stored.trackRead id).trackingSubscriber
      rw [trackingSubscriber_trackRead]
      exact hslot.keep (keepsSlots_of_kinds (kindAt_trackRead stored id))
    · exact (h.evaluating entry (mem_of_mem_eraseIdx hmem)).keep hkeeps

theorem RuntimeOk.completeEffect (place : ℕ)
    : RuntimeOk (rt.apply (.completeEffect place)) := by
  cases hprep : rt.running[place]? with
  | none =>
    simp only [apply, hprep]
    exact h
  | some prep =>
    simp only [apply, hprep]
    exact ⟨h.graph.of_sameShape (SameShape.of_nodes rfl rfl),
      h.running prep (mem_of_getElem? hprep), h.evaluating,
      fun prep hmem => h.running prep (mem_of_mem_eraseIdx hmem)⟩

theorem apply_ok {op : GraphOp V F} (hcareful : Careful rt op)
    : RuntimeOk (rt.apply op) := by
  cases op with
  | createSignal value hmrKey => exact h.alloc hcareful (isFresh_signal value hmrKey)
  | createComputed computeFn => exact h.alloc hcareful (isFresh_computed computeFn)
  | allocEffect effectFn => exact h.alloc hcareful (isFresh_effect effectFn)
  | read id => exact h.read id hcareful
  | beginEvaluate id => exact h.beginEvaluate id
  | completeEvaluate place newValue => exact h.completeEvaluate place newValue hcareful
  | write id newValue =>
    have hwrite := writeSignalNoFlush_sameShape rt.graph id newValue
    exact h.step_sameShape hwrite.1 hwrite.2
  | beginEffect id => exact h.beginEffect id
  | completeEffect place => exact h.completeEffect place
  | batchStart => exact h.step_sameShape (SameShape.of_nodes rfl rfl) rfl
  | batchEnd => exact h.step_sameShape (SameShape.of_nodes rfl rfl) rfl
  | drain => exact h.step_sameShape (SameShape.of_nodes rfl rfl) rfl
  | dispose id =>
    exact h.step (h.graph.dispose hcareful) (keepsSlots_dispose rt.graph id)
      (trackingSubscriber_dispose rt.graph id)
  | disposeEffect id =>
    have hkinds := (setDisposed_sameShape rt.graph id).kinds
    refine h.step (h.graph.disposeEffect hcareful) (fun j hj => ?_)
      (trackingSubscriber_dispose _ id)
    exact keepsSlots_dispose _ id j (by rwa [hkinds])

end

/-! ### Careless steps -/

theorem not_freeListExact_dispose (h : GraphOk g) (hempty : kindAt g id = some .empty) :
    ¬ FreeListExact (g.dispose id) := by
  intro hexact
  have hnodup := hexact.1
  rw [freeList_dispose (by simp [hempty]), nodup_cons] at hnodup
  exact hnodup.1 ((h.freeExact.2 id).mpr hempty)

theorem not_edgesSymmetric_trackRead {source sub : ℕ}
    (htracking : g.trackingSubscriber = some sub) (hsource : IsSource g source)
    (hsub : kindAt g sub = some .signal) : ¬ EdgesSymmetric (g.trackRead source) := by
  intro hsym
  have hlive : ∀ id, kindAt (g.trackRead source) id = kindAt g id := kindAt_trackRead g source
  have hedge : sub ∈ (g.trackRead source).subscribersOf source := by
    unfold trackRead
    rw [htracking]
    exact (mem_subscribersOf_trackDependency g source sub source sub).mpr (.inr ⟨rfl, rfl, hsource⟩)
  have hback := (hsym source sub ((isLive_congr hlive source).mpr (isLive_of_isSource hsource))
    ⟨_, (hlive sub).trans hsub, by decide⟩).mp hedge
  have hkind := isSubscriber_of_mem hback
  unfold IsSubscriber at hkind
  rw [hlive, hsub] at hkind
  simp at hkind

/-- A new node in a slot that is still named lacks the source. -/
theorem not_edgesSymmetric_reuse (h : GraphOk g) {id source : ℕ} {rest : List ℕ}
    (hfree : g.freeList = id :: rest) (hmem : id ∈ g.subscribersOf source) (hnode : IsFresh node) :
    ¬ EdgesSymmetric (g.allocSlot node).2 := by
  intro hsym
  have hempty : kindAt g id = some .empty := (h.freeExact.2 id).mp (by simp [hfree])
  have hslot : kindAt g id ≠ none := by simp [hempty]
  have hne : id ≠ source := by
    intro heq
    have hkind := isSource_of_mem hmem
    unfold IsSource at hkind
    rw [← heq, hempty] at hkind
    simp at hkind
  rw [allocSlot_reuse hfree] at hsym
  have hback := hsym source id ?_ ?_
  · rw [subscribersOf_set rfl hnode.2.1, if_neg hne, sourcesOf_set rfl hnode.2.2,
      if_pos rfl] at hback
    exact not_mem_nil (hback.mp hmem)
  · obtain ⟨kind, hkind, hkne⟩ := isLive_of_isSource (isSource_of_mem hmem)
    exact ⟨kind, by rw [kindAt_set rfl hslot, if_neg hne, hkind], hkne⟩
  · exact ⟨_, by rw [kindAt_set rfl hslot, if_pos rfl], hnode.1⟩

theorem isLive_allocSlot (h : GraphOk g) (hfree : g.freeList = [])
    (hfull : 2 ^ 32 ≤ g.nodes.length) (node : SignalNode V F) :
    IsLive g (g.allocSlot node).1 := by
  rw [allocSlot_push hfree]
  show IsLive g (g.nodes.length % 2 ^ 32)
  apply isLive_of_ne
  · intro hnone
    have hlt : g.nodes.length % 2 ^ 32 < 2 ^ 32 := Nat.mod_lt _ (by omega)
    have hle := kindAt_eq_none.mp hnone
    omega
  · intro hempty
    have hmem := (h.freeExact.2 _).mpr hempty
    rw [hfree] at hmem
    exact not_mem_nil hmem

theorem canAllocate_of_sound (h : GraphOk g) (hnode : IsFresh node)
    (halloc : ¬ IsLive g (g.allocSlot node).1) (hsym : EdgesSymmetric (g.allocSlot node).2) :
    CanAllocate g := by
  cases hfree : g.freeList with
  | cons id rest =>
    rw [canAllocate_cons hfree]
    intro source hmem
    exact not_edgesSymmetric_reuse h hfree hmem hnode hsym
  | nil =>
    rw [canAllocate_nil hfree]
    by_contra hfull
    exact halloc (isLive_allocSlot h hfree (by omega) node)

theorem canTrack_of_sound {source : ℕ} (hsym : EdgesSymmetric (g.trackRead source)) :
    CanTrack g source g.trackingSubscriber := by
  intro hsource sub htracking hsub
  exact not_edgesSymmetric_trackRead htracking hsource hsub hsym

theorem careful_of_soundStep [DecidableEq V] {op : GraphOp V F} (h : RuntimeOk rt)
    (hsound : SoundStep rt op) : Careful rt op := by
  obtain ⟨halloc, hexact, hsym⟩ := hsound
  cases op with
  | createSignal value hmrKey =>
    exact canAllocate_of_sound h.graph (isFresh_signal value hmrKey) (halloc _ rfl) hsym
  | createComputed computeFn =>
    exact canAllocate_of_sound h.graph (isFresh_computed computeFn) (halloc _ rfl) hsym
  | allocEffect effectFn =>
    exact canAllocate_of_sound h.graph (isFresh_effect effectFn) (halloc _ rfl) hsym
  | read id =>
    intro hready
    have hread : EdgesSymmetric (rt.graph.tryRead id).2 := hsym
    rw [tryRead_of_ready hready] at hread
    exact canTrack_of_sound hread
  | completeEvaluate place newValue =>
    intro id prep hentry
    simp only [apply, hentry, completeEvaluateComputed] at hsym
    have htrack := canTrack_of_sound hsym
    rw [trackingSubscriber_storeResult] at htrack
    have hkinds := (storeResult_sameShape rt.graph id newValue prep.oldTracking).kinds
    unfold CanTrack at htrack
    simp only [hkinds] at htrack
    exact htrack
  | dispose id => exact fun hempty => not_freeListExact_dispose h.graph hempty hexact
  | disposeEffect id =>
    intro hempty
    have hshape := setDisposed_sameShape rt.graph id
    exact not_freeListExact_dispose (h.graph.of_sameShape hshape)
      ((hshape.kinds id).trans hempty) hexact
  | beginEvaluate id => trivial
  | write id newValue => trivial
  | beginEffect id => trivial
  | completeEffect place => trivial
  | batchStart => trivial
  | batchEnd => trivial
  | drain => trivial

/-! ### Runs -/

theorem soundStep_of_careful [DecidableEq V] {op : GraphOp V F} (h : RuntimeOk rt)
    (hcareful : Careful rt op) : SoundStep rt op := by
  have hok := apply_ok h hcareful
  refine ⟨fun id hid => ?_, hok.graph.freeExact, hok.graph.edgesSymmetric⟩
  cases op with
  | createSignal value hmrKey =>
    rw [← Option.some.inj hid]
    exact h.graph.allocSlot_free hcareful _
  | createComputed computeFn =>
    rw [← Option.some.inj hid]
    exact h.graph.allocSlot_free hcareful _
  | allocEffect effectFn =>
    rw [← Option.some.inj hid]
    exact h.graph.allocSlot_free hcareful _
  | _ => simp [allocated] at hid

theorem soundStep_iff [DecidableEq V] (h : RuntimeOk rt) (op : GraphOp V F)
    : SoundStep rt op ↔ Careful rt op :=
  ⟨careful_of_soundStep h, soundStep_of_careful h⟩

theorem runtime_new_ok : RuntimeOk (GraphRuntime.new : GraphRuntime V F) := by
  refine ⟨new_ok, fun sub hsub => ?_, fun entry hentry => ?_, fun prep hprep => ?_⟩
  · simp [GraphRuntime.new, new] at hsub
  · simp [GraphRuntime.new] at hentry
  · simp [GraphRuntime.new] at hprep

/-- A signal disposed twice, and two signals in its slot. -/
def disposeTwice : List (GraphOp ℕ ℕ) :=
  [.createSignal 0 none, .dispose 0, .dispose 0, .createSignal 1 none, .createSignal 2 none]

/-- A computed disposed while it is evaluated reads a signal, and another
signal gets its slot. -/
def disposeRunning : List (GraphOp ℕ ℕ) :=
  [.createSignal 0 none, .createComputed 0, .beginEvaluate 1, .dispose 1, .read 0,
    .createSignal 1 none]

end Vertz.Proofs
