import Vertz.Spec.GraphRuns

/-!
# `Vertz.Proofs.GraphEdges`: what each graph operation does to slots and edges

Nodes are seen through three functions of the slot: its kind, its
subscribers and its sources. Every part of an operation either leaves the
three alone (`SameShape`) or has one lemma here that says how they
change:

* `notifySubscribers_sameShape` and its kind: notification, values,
  states and queues are no part of the shape.
* `mem_subscribersOf_trackDependency`, `mem_sourcesOf_trackDependency`:
  a tracked read adds one edge at both ends.
* `mem_subscribersOf_clearSources`, `mem_sourcesOf_clearSources`: a begun
  run drops the edges into its node.
* `mem_subscribersOf_dispose`, `mem_sourcesOf_dispose`: disposal drops
  the edges of the node that both ends know of.
-/

namespace Vertz.Proofs

open Vertz.Native Vertz.Native.SignalGraph Vertz.Spec List

variable {V F : Type}

/-! ### Nodes -/

section

variable (f : List ℕ → List ℕ) (node : SignalNode V F)

@[simp] theorem kindOf_mapSubscribers :
    kindOf (node.mapSubscribers f) = kindOf node := by
  cases node <;> rfl

@[simp] theorem kindOf_mapSources :
    kindOf (node.mapSources f) = kindOf node := by
  cases node <;> rfl

@[simp] theorem sources_mapSubscribers :
    (node.mapSubscribers f).sources = node.sources := by
  cases node <;> rfl

@[simp] theorem subscribers_mapSources :
    (node.mapSources f).subscribers = node.subscribers := by
  cases node <;> rfl

theorem subscribers_mapSubscribers :
    (node.mapSubscribers f).subscribers
      = if kindOf node = .signal ∨ kindOf node = .computed then f node.subscribers else [] := by
  cases node <;> simp [SignalNode.mapSubscribers, SignalNode.subscribers, kindOf]

theorem sources_mapSources :
    (node.mapSources f).sources
      = if kindOf node = .computed ∨ kindOf node = .effect then f node.sources else [] := by
  cases node <;> simp [SignalNode.mapSources, SignalNode.sources, kindOf]

end

theorem subscribers_eq_nil {node : SignalNode V F} (hs : kindOf node ≠ .signal)
    (hc : kindOf node ≠ .computed) : node.subscribers = [] := by
  cases node <;> simp_all [kindOf, SignalNode.subscribers]

theorem sources_eq_nil {node : SignalNode V F} (hc : kindOf node ≠ .computed)
    (he : kindOf node ≠ .effect) : node.sources = [] := by
  cases node <;> simp_all [kindOf, SignalNode.sources]

/-! ### Slots -/

variable {g g' : SignalGraph V F}

theorem nodes_modifyNode (g : SignalGraph V F) (id : ℕ) (f : SignalNode V F → SignalNode V F)
    (j : ℕ) : (g.modifyNode id f).nodes[j]? = (g.nodes[j]?).map (if id = j then f else fun x => x) := by
  show (g.nodes.modify id f)[j]? = _
  rw [getElem?_modify]
  split <;> simp

variable {id : ℕ}

theorem kindAt_eq_none : kindAt g id = none ↔ g.nodes.length ≤ id := by
  simp [kindAt]

theorem subscribersOf_eq_nil (hs : kindAt g id ≠ some .signal) (hc : kindAt g id ≠ some .computed)
    : g.subscribersOf id = [] := by
  unfold subscribersOf
  cases h : g.nodes[id]? with
  | none => rfl
  | some node =>
    have hs' : kindOf node ≠ .signal := fun hk => hs (by simp [kindAt, h, hk])
    have hc' : kindOf node ≠ .computed := fun hk => hc (by simp [kindAt, h, hk])
    simp [subscribers_eq_nil hs' hc']

theorem sourcesOf_eq_nil (hc : kindAt g id ≠ some .computed) (he : kindAt g id ≠ some .effect)
    : g.sourcesOf id = [] := by
  unfold sourcesOf
  cases h : g.nodes[id]? with
  | none => rfl
  | some node =>
    have hc' : kindOf node ≠ .computed := fun hk => hc (by simp [kindAt, h, hk])
    have he' : kindOf node ≠ .effect := fun hk => he (by simp [kindAt, h, hk])
    simp [sources_eq_nil hc' he']

theorem subscribersOf_modify_mapSubscribers (g : SignalGraph V F) (id : ℕ)
    (f : List ℕ → List ℕ) (j : ℕ) :
    (g.modifyNode id (.mapSubscribers f)).subscribersOf j
      = if id = j ∧ (kindAt g j = some .signal ∨ kindAt g j = some .computed)
        then f (g.subscribersOf j) else g.subscribersOf j := by
  unfold subscribersOf
  rw [nodes_modifyNode]
  cases h : g.nodes[j]? with
  | none => simp [kindAt, h]
  | some node =>
    by_cases hid : id = j
    · by_cases hk : kindOf node = .signal ∨ kindOf node = .computed
      · simp [kindAt, h, hid, hk, subscribers_mapSubscribers]
      · have hnil : node.subscribers = [] :=
          subscribers_eq_nil (fun hs => hk (.inl hs)) (fun hc => hk (.inr hc))
        simp [kindAt, h, hid, hk, subscribers_mapSubscribers, hnil]
    · simp [hid]

theorem sourcesOf_modify_mapSources (g : SignalGraph V F) (id : ℕ) (f : List ℕ → List ℕ) (j : ℕ) :
    (g.modifyNode id (.mapSources f)).sourcesOf j
      = if id = j ∧ (kindAt g j = some .computed ∨ kindAt g j = some .effect)
        then f (g.sourcesOf j) else g.sourcesOf j := by
  unfold sourcesOf
  rw [nodes_modifyNode]
  cases h : g.nodes[j]? with
  | none => simp [kindAt, h]
  | some node =>
    by_cases hid : id = j
    · by_cases hk : kindOf node = .computed ∨ kindOf node = .effect
      · simp [kindAt, h, hid, hk, sources_mapSources]
      · have hnil : node.sources = [] :=
          sources_eq_nil (fun hc => hk (.inl hc)) (fun he => hk (.inr he))
        simp [kindAt, h, hid, hk, sources_mapSources, hnil]
    · simp [hid]

/-- Filtering needs no look at the kind: a node without subscribers has
none to filter. -/
theorem subscribersOf_modify_filter (g : SignalGraph V F) (id : ℕ) (p : ℕ → Bool) (j : ℕ) :
    (g.modifyNode id (.mapSubscribers (·.filter p))).subscribersOf j
      = if id = j then (g.subscribersOf j).filter p else g.subscribersOf j := by
  rw [subscribersOf_modify_mapSubscribers]
  by_cases hk : kindAt g j = some .signal ∨ kindAt g j = some .computed
  · simp [hk]
  · have hnil : g.subscribersOf j = [] :=
      subscribersOf_eq_nil (fun hs => hk (.inl hs)) (fun hc => hk (.inr hc))
    simp [hk, hnil]

theorem sourcesOf_modify_filter (g : SignalGraph V F) (id : ℕ) (p : ℕ → Bool) (j : ℕ) :
    (g.modifyNode id (.mapSources (·.filter p))).sourcesOf j
      = if id = j then (g.sourcesOf j).filter p else g.sourcesOf j := by
  rw [sourcesOf_modify_mapSources]
  by_cases hk : kindAt g j = some .computed ∨ kindAt g j = some .effect
  · simp [hk]
  · have hnil : g.sourcesOf j = [] :=
      sourcesOf_eq_nil (fun hc => hk (.inl hc)) (fun he => hk (.inr he))
    simp [hk, hnil]

@[simp] theorem sourcesOf_modify_mapSubscribers (g : SignalGraph V F) (id : ℕ)
    (f : List ℕ → List ℕ) (j : ℕ) :
    (g.modifyNode id (.mapSubscribers f)).sourcesOf j = g.sourcesOf j := by
  unfold sourcesOf
  rw [nodes_modifyNode]
  cases g.nodes[j]? with
  | none => rfl
  | some node => by_cases hid : id = j <;> simp [hid]

@[simp] theorem subscribersOf_modify_mapSources (g : SignalGraph V F) (id : ℕ)
    (f : List ℕ → List ℕ) (j : ℕ) :
    (g.modifyNode id (.mapSources f)).subscribersOf j = g.subscribersOf j := by
  unfold subscribersOf
  rw [nodes_modifyNode]
  cases g.nodes[j]? with
  | none => rfl
  | some node => by_cases hid : id = j <;> simp [hid]

variable {f : SignalNode V F → SignalNode V F}

theorem kindAt_modifyNode (hf : ∀ node, kindOf (f node) = kindOf node) (g : SignalGraph V F)
    (id j : ℕ) : kindAt (g.modifyNode id f) j = kindAt g j := by
  unfold kindAt
  rw [nodes_modifyNode]
  cases g.nodes[j]? with
  | none => rfl
  | some node => by_cases hid : id = j <;> simp [hid, hf]

/-! ### What leaves the shape alone -/

/-- The same nodes, edges and free slots, whatever the values, states and
queues are. -/
structure SameShape (g g' : SignalGraph V F) : Prop where
  kinds : ∀ id, kindAt g' id = kindAt g id
  subscribers : ∀ id, g'.subscribersOf id = g.subscribersOf id
  sources : ∀ id, g'.sourcesOf id = g.sourcesOf id
  free : g'.freeList = g.freeList

theorem SameShape.refl (g : SignalGraph V F) : SameShape g g :=
  ⟨fun _ => rfl, fun _ => rfl, fun _ => rfl, rfl⟩

theorem SameShape.trans {g₁ g₂ g₃ : SignalGraph V F} (h : SameShape g₁ g₂)
    (h' : SameShape g₂ g₃) : SameShape g₁ g₃ :=
  ⟨fun id => (h'.kinds id).trans (h.kinds id),
    fun id => (h'.subscribers id).trans (h.subscribers id),
    fun id => (h'.sources id).trans (h.sources id), h'.free.trans h.free⟩

theorem SameShape.of_nodes (hn : g'.nodes = g.nodes) (hf : g'.freeList = g.freeList) :
    SameShape g g' := by
  refine ⟨fun id => ?_, fun id => ?_, fun id => ?_, hf⟩
  · simp [kindAt, hn]
  · simp [subscribersOf, hn]
  · simp [sourcesOf, hn]

theorem modifyNode_sameShape (hk : ∀ node, kindOf (f node) = kindOf node)
    (hsub : ∀ node, (f node).subscribers = node.subscribers)
    (hsrc : ∀ node, (f node).sources = node.sources) (g : SignalGraph V F) (id : ℕ) :
    SameShape g (g.modifyNode id f) := by
  refine ⟨kindAt_modifyNode hk g id, fun j => ?_, fun j => ?_, rfl⟩
  · unfold subscribersOf
    rw [nodes_modifyNode]
    cases g.nodes[j]? with
    | none => rfl
    | some node => by_cases hid : id = j <;> simp [hid, hsub]
  · unfold sourcesOf
    rw [nodes_modifyNode]
    cases g.nodes[j]? with
    | none => rfl
    | some node => by_cases hid : id = j <;> simp [hid, hsrc]

theorem setState_sameShape (g : SignalGraph V F) (id : ℕ) (state : ComputedState) :
    SameShape g (g.modifyNode id (.setState state)) := by
  apply modifyNode_sameShape <;> intro node <;> cases node <;> rfl

theorem setCached_sameShape (g : SignalGraph V F) (id : ℕ) (value : V) :
    SameShape g (g.modifyNode id (.setCached value)) := by
  apply modifyNode_sameShape <;> intro node <;> cases node <;> rfl

theorem setValue_sameShape (g : SignalGraph V F) (id : ℕ) (value : V) :
    SameShape g (g.modifyNode id (.setValue value)) := by
  apply modifyNode_sameShape <;> intro node <;> cases node <;> rfl

theorem setDisposed_sameShape (g : SignalGraph V F) (id : ℕ) :
    SameShape g (g.modifyNode id .setDisposed) := by
  apply modifyNode_sameShape <;> intro node <;> cases node <;> rfl

theorem queueEffect_sameShape (g : SignalGraph V F) (id : ℕ) : SameShape g (g.queueEffect id) := by
  unfold queueEffect
  split
  · exact SameShape.refl g
  · exact SameShape.of_nodes rfl rfl

theorem foldl_sameShape {step : SignalGraph V F → ℕ → SignalGraph V F}
    (hstep : ∀ g id, SameShape g (step g id)) (ids : List ℕ) (g : SignalGraph V F) :
    SameShape g (ids.foldl step g) := by
  induction ids generalizing g with
  | nil => exact SameShape.refl g
  | cons id ids ih => exact (hstep g id).trans (ih (step g id))

theorem scheduleNotify_sameShape (depth : ℕ) (g : SignalGraph V F) (id : ℕ) :
    SameShape g (scheduleNotify depth g id) := by
  induction depth generalizing g id with
  | zero => exact SameShape.refl g
  | succ depth ih =>
    unfold scheduleNotify
    split
    · split
      · exact SameShape.refl g
      · exact (setState_sameShape g id .dirty).trans (foldl_sameShape ih _ _)
    · split
      · exact SameShape.refl g
      · exact queueEffect_sameShape g id
    · exact SameShape.refl g

theorem notifySubscribers_sameShape (g : SignalGraph V F) (id : ℕ) :
    SameShape g (g.notifySubscribers id) :=
  foldl_sameShape (scheduleNotify_sameShape _) _ g

theorem trackingSubscriber_scheduleNotify (depth : ℕ) (g : SignalGraph V F) (id : ℕ) :
    (scheduleNotify depth g id).trackingSubscriber = g.trackingSubscriber := by
  induction depth generalizing g id with
  | zero => rfl
  | succ depth ih =>
    have hfold : ∀ (ids : List ℕ) (g : SignalGraph V F),
        (ids.foldl (scheduleNotify depth) g).trackingSubscriber = g.trackingSubscriber := by
      intro ids
      induction ids with
      | nil => intro g; rfl
      | cons sub ids ihs => intro g; exact (ihs _).trans (ih g sub)
    unfold scheduleNotify
    split
    · split
      · rfl
      · exact hfold _ _
    · split
      · rfl
      · unfold queueEffect
        split <;> rfl
    · rfl

theorem trackingSubscriber_notifySubscribers (g : SignalGraph V F) (id : ℕ) :
    (g.notifySubscribers id).trackingSubscriber = g.trackingSubscriber := by
  unfold notifySubscribers
  generalize g.subscribersOf id = ids, g.nodes.length + 1 = depth
  induction ids generalizing g with
  | nil => rfl
  | cons sub ids ih => exact (ih _).trans (trackingSubscriber_scheduleNotify depth g sub)

/-! ### Tracked reads -/

/-- A node that others can subscribe to. -/
def IsSource (g : SignalGraph V F) (id : ℕ) : Prop :=
  kindAt g id = some .signal ∨ kindAt g id = some .computed

/-- A node that subscribes to others. -/
def IsSubscriber (g : SignalGraph V F) (id : ℕ) : Prop :=
  kindAt g id = some .computed ∨ kindAt g id = some .effect

theorem isSource_of_mem {source sub : ℕ} (h : sub ∈ g.subscribersOf source) :
    IsSource g source := by
  by_contra hsource
  rw [subscribersOf_eq_nil (fun hs => hsource (.inl hs)) (fun hc => hsource (.inr hc))] at h
  exact not_mem_nil h

theorem isSubscriber_of_mem {source sub : ℕ} (h : source ∈ g.sourcesOf sub) :
    IsSubscriber g sub := by
  by_contra hsub
  rw [sourcesOf_eq_nil (fun hc => hsub (.inl hc)) (fun he => hsub (.inr he))] at h
  exact not_mem_nil h

theorem addsToSource_iff (g : SignalGraph V F) (source sub : ℕ) :
    g.addsToSource source sub = true ↔ IsSource g source ∧ sub ∉ g.subscribersOf source := by
  unfold addsToSource
  cases h : g.nodes[source]? with
  | none => simp [IsSource, kindAt, h]
  | some node =>
    cases node <;>
      simp [IsSource, kindAt, kindOf, h, subscribersOf, SignalNode.subscribers]

theorem kindAt_trackDependency (g : SignalGraph V F) (source sub j : ℕ) :
    kindAt (g.trackDependency source sub) j = kindAt g j := by
  unfold trackDependency
  split
  · rw [kindAt_modifyNode (kindOf_mapSources _), kindAt_modifyNode (kindOf_mapSubscribers _)]
  · rfl

theorem freeList_trackDependency (g : SignalGraph V F) (source sub : ℕ) :
    (g.trackDependency source sub).freeList = g.freeList := by
  unfold trackDependency
  split <;> rfl

theorem mem_subscribersOf_trackDependency (g : SignalGraph V F) (source sub : ℕ) (j k : ℕ) :
    k ∈ (g.trackDependency source sub).subscribersOf j
      ↔ k ∈ g.subscribersOf j ∨ (j = source ∧ k = sub ∧ IsSource g source) := by
  unfold trackDependency
  by_cases hadd : IsSource g source ∧ sub ∉ g.subscribersOf source
  · rw [if_pos ((addsToSource_iff g source sub).mpr hadd), subscribersOf_modify_mapSources, subscribersOf_modify_mapSubscribers]
    by_cases hj : source = j
    · subst hj
      rw [if_pos ⟨rfl, hadd.1⟩]
      simp [hadd.1]
    · rw [if_neg (fun h => hj h.1)]
      simp [Ne.symm hj]
  · rw [if_neg (fun h => hadd ((addsToSource_iff g source sub).mp h))]
    constructor
    · exact .inl
    · intro h
      cases h with
      | inl h => exact h
      | inr h =>
        rw [h.1, h.2.1]
        by_contra hmem
        exact hadd ⟨h.2.2, hmem⟩

theorem mem_sourcesOf_trackDependency (g : SignalGraph V F) (source sub : ℕ) (j k : ℕ) :
    j ∈ (g.trackDependency source sub).sourcesOf k
      ↔ j ∈ g.sourcesOf k ∨ (j = source ∧ k = sub ∧ IsSource g source ∧ IsSubscriber g sub
        ∧ sub ∉ g.subscribersOf source) := by
  unfold trackDependency
  by_cases hadd : IsSource g source ∧ sub ∉ g.subscribersOf source
  · rw [if_pos ((addsToSource_iff g source sub).mpr hadd), sourcesOf_modify_mapSources, sourcesOf_modify_mapSubscribers,
      kindAt_modifyNode (kindOf_mapSubscribers _)]
    by_cases hk : sub = k
    · subst hk
      by_cases hsub : IsSubscriber g sub
      · rw [if_pos ⟨rfl, hsub⟩]
        by_cases hmem : source ∈ g.sourcesOf sub
        · simp only [contains_iff_mem, hmem, if_true]
          constructor
          · exact .inl
          · intro h
            cases h with
            | inl h => exact h
            | inr h => rw [h.1]; exact hmem
        · simp [hmem, hadd.1, hadd.2, hsub]
      · rw [if_neg (fun h => hsub h.2)]
        simp [hsub]
    · rw [if_neg (fun h => hk h.1)]
      simp [Ne.symm hk]
  · rw [if_neg (fun h => hadd ((addsToSource_iff g source sub).mp h))]
    constructor
    · exact .inl
    · intro h
      cases h with
      | inl h => exact h
      | inr h => exact absurd ⟨h.2.2.1, h.2.2.2.2⟩ hadd

/-! ### Dropped edges -/

/-- Remove a node from the subscribers of the listed nodes. -/
theorem mem_subscribersOf_foldl (g : SignalGraph V F) (id : ℕ) (ids : List ℕ) (j k : ℕ) :
    k ∈ (ids.foldl (fun g source => g.modifyNode source (.mapSubscribers (·.filter (· != id))))
        g).subscribersOf j
      ↔ k ∈ g.subscribersOf j ∧ ¬ (k = id ∧ j ∈ ids) := by
  induction ids generalizing g with
  | nil => simp
  | cons source ids ih =>
    rw [foldl_cons, ih, subscribersOf_modify_filter]
    by_cases hj : source = j
    · subst hj
      simp only [if_true, mem_filter, bne_iff_ne, mem_cons]
      tauto
    · simp only [if_neg hj, mem_cons, Ne.symm hj, false_or]

theorem mem_sourcesOf_foldl (g : SignalGraph V F) (id : ℕ) (ids : List ℕ) (j k : ℕ) :
    j ∈ (ids.foldl (fun g sub => g.modifyNode sub (.mapSources (·.filter (· != id))))
        g).sourcesOf k
      ↔ j ∈ g.sourcesOf k ∧ ¬ (j = id ∧ k ∈ ids) := by
  induction ids generalizing g with
  | nil => simp
  | cons sub ids ih =>
    rw [foldl_cons, ih, sourcesOf_modify_filter]
    by_cases hk : sub = k
    · subst hk
      simp only [if_true, mem_filter, bne_iff_ne, mem_cons]
      tauto
    · simp only [if_neg hk, mem_cons, Ne.symm hk, false_or]

theorem foldl_modifyNode_inv {A : Type} (look : SignalGraph V F → A)
    (hlook : ∀ g id, look (g.modifyNode id f) = look g) (ids : List ℕ) (g : SignalGraph V F) :
    look (ids.foldl (fun g id => g.modifyNode id f) g) = look g := by
  induction ids generalizing g with
  | nil => rfl
  | cons id ids ih => exact (ih _).trans (hlook g id)

theorem kindAt_removeFromSources (g : SignalGraph V F) (id j : ℕ) :
    kindAt (g.removeFromSources id) j = kindAt g j :=
  foldl_modifyNode_inv (fun g => kindAt g j)
    (fun g i => kindAt_modifyNode (kindOf_mapSubscribers _) g i j) _ g

theorem kindAt_removeFromSubscribers (g : SignalGraph V F) (id j : ℕ) :
    kindAt (g.removeFromSubscribers id) j = kindAt g j :=
  foldl_modifyNode_inv (fun g => kindAt g j)
    (fun g i => kindAt_modifyNode (kindOf_mapSources _) g i j) _ g

theorem sourcesOf_removeFromSources (g : SignalGraph V F) (id j : ℕ) :
    (g.removeFromSources id).sourcesOf j = g.sourcesOf j :=
  foldl_modifyNode_inv (fun g => g.sourcesOf j)
    (fun g i => sourcesOf_modify_mapSubscribers g i _ j) _ g

theorem subscribersOf_removeFromSubscribers (g : SignalGraph V F) (id j : ℕ) :
    (g.removeFromSubscribers id).subscribersOf j = g.subscribersOf j :=
  foldl_modifyNode_inv (fun g => g.subscribersOf j)
    (fun g i => subscribersOf_modify_mapSources g i _ j) _ g

theorem mem_subscribersOf_removeFromSources (g : SignalGraph V F) (id j k : ℕ) :
    k ∈ (g.removeFromSources id).subscribersOf j
      ↔ k ∈ g.subscribersOf j ∧ ¬ (k = id ∧ j ∈ g.sourcesOf id) :=
  mem_subscribersOf_foldl g id _ j k

theorem mem_sourcesOf_removeFromSubscribers (g : SignalGraph V F) (id j k : ℕ) :
    j ∈ (g.removeFromSubscribers id).sourcesOf k
      ↔ j ∈ g.sourcesOf k ∧ ¬ (j = id ∧ k ∈ g.subscribersOf id) :=
  mem_sourcesOf_foldl g id _ j k

theorem freeList_removeFromSources (g : SignalGraph V F) (id : ℕ) :
    (g.removeFromSources id).freeList = g.freeList :=
  foldl_modifyNode_inv (fun g => g.freeList) (fun _ _ => rfl) _ g

theorem freeList_removeFromSubscribers (g : SignalGraph V F) (id : ℕ) :
    (g.removeFromSubscribers id).freeList = g.freeList :=
  foldl_modifyNode_inv (fun g => g.freeList) (fun _ _ => rfl) _ g

theorem kindAt_clearSources (g : SignalGraph V F) (id j : ℕ) :
    kindAt (g.clearSources id) j = kindAt g j := by
  unfold clearSources
  rw [kindAt_modifyNode (kindOf_mapSources _), kindAt_removeFromSources]

theorem freeList_clearSources (g : SignalGraph V F) (id : ℕ) :
    (g.clearSources id).freeList = g.freeList :=
  freeList_removeFromSources g id

theorem mem_subscribersOf_clearSources (g : SignalGraph V F) (id j k : ℕ) :
    k ∈ (g.clearSources id).subscribersOf j
      ↔ k ∈ g.subscribersOf j ∧ ¬ (k = id ∧ j ∈ g.sourcesOf id) := by
  unfold clearSources
  rw [subscribersOf_modify_mapSources, mem_subscribersOf_removeFromSources]

theorem sourcesOf_clearSources (g : SignalGraph V F) (hid : IsSubscriber g id) (k : ℕ) :
    (g.clearSources id).sourcesOf k = if id = k then [] else g.sourcesOf k := by
  unfold clearSources
  rw [sourcesOf_modify_mapSources, kindAt_removeFromSources, sourcesOf_removeFromSources]
  by_cases hk : id = k
  · subst hk
    rw [if_pos ⟨rfl, hid⟩, if_pos rfl]
  · rw [if_neg (fun h => hk h.1), if_neg hk]

/-! ### Disposal and creation -/

theorem dispose_of_none (h : kindAt g id = none) : g.dispose id = g := by
  unfold dispose
  rw [if_pos (kindAt_eq_none.mp h)]

theorem dispose_eq (h : kindAt g id ≠ none) :
    g.dispose id =
      { (g.removeFromSources id).removeFromSubscribers id with
        nodes := ((g.removeFromSources id).removeFromSubscribers id).nodes.set id
          (.empty (g.keptKey id))
        freeList := id :: ((g.removeFromSources id).removeFromSubscribers id).freeList } := by
  unfold dispose
  rw [if_neg (fun hle => h (kindAt_eq_none.mpr hle))]

theorem freeList_dispose (h : kindAt g id ≠ none) : (g.dispose id).freeList = id :: g.freeList := by
  rw [dispose_eq h]
  show id :: _ = _
  rw [freeList_removeFromSubscribers, freeList_removeFromSources]

section SetNode

/-! A slot that gets another node. -/

variable {id : ℕ} {node : SignalNode V F}

theorem kindAt_set (hg : g'.nodes = g.nodes.set id node) (h : kindAt g id ≠ none) (j : ℕ) :
    kindAt g' j = if id = j then some (kindOf node) else kindAt g j := by
  have hlt : id < g.nodes.length := by
    by_contra hlt
    exact h (kindAt_eq_none.mpr (Nat.le_of_not_lt hlt))
  unfold kindAt
  rw [hg, getElem?_set]
  by_cases hj : id = j
  · subst hj
    simp [hlt]
  · simp [hj]

theorem subscribersOf_set (hg : g'.nodes = g.nodes.set id node) (h : node.subscribers = [])
    (j : ℕ) : g'.subscribersOf j = if id = j then [] else g.subscribersOf j := by
  unfold subscribersOf
  rw [hg, getElem?_set]
  by_cases hj : id = j
  · subst hj
    by_cases hlt : id < g.nodes.length <;> simp [hlt, h]
  · simp [hj]

theorem sourcesOf_set (hg : g'.nodes = g.nodes.set id node) (h : node.sources = [])
    (j : ℕ) : g'.sourcesOf j = if id = j then [] else g.sourcesOf j := by
  unfold sourcesOf
  rw [hg, getElem?_set]
  by_cases hj : id = j
  · subst hj
    by_cases hlt : id < g.nodes.length <;> simp [hlt, h]
  · simp [hj]

end SetNode

theorem kindAt_dispose (h : kindAt g id ≠ none) (j : ℕ) :
    kindAt (g.dispose id) j = if id = j then some .empty else kindAt g j := by
  have h' : kindAt ((g.removeFromSources id).removeFromSubscribers id) id ≠ none := by
    rwa [kindAt_removeFromSubscribers, kindAt_removeFromSources]
  rw [dispose_eq h, kindAt_set rfl h' j, kindAt_removeFromSubscribers, kindAt_removeFromSources]
  rfl

theorem mem_subscribersOf_dispose (h : kindAt g id ≠ none) (j k : ℕ) :
    k ∈ (g.dispose id).subscribersOf j
      ↔ id ≠ j ∧ k ∈ g.subscribersOf j ∧ ¬ (k = id ∧ j ∈ g.sourcesOf id) := by
  rw [dispose_eq h, subscribersOf_set rfl rfl]
  by_cases hj : id = j
  · simp [hj]
  · rw [if_neg hj, subscribersOf_removeFromSubscribers, mem_subscribersOf_removeFromSources]
    simp [hj]

theorem mem_sourcesOf_dispose (h : kindAt g id ≠ none) (j k : ℕ) :
    j ∈ (g.dispose id).sourcesOf k
      ↔ id ≠ k ∧ j ∈ g.sourcesOf k ∧ ¬ (j = id ∧ k ∈ g.subscribersOf id) := by
  rw [dispose_eq h, sourcesOf_set rfl rfl]
  by_cases hk : id = k
  · simp [hk]
  · rw [if_neg hk, mem_sourcesOf_removeFromSubscribers, sourcesOf_removeFromSources,
      mem_subscribersOf_removeFromSources]
    simp [hk, Ne.symm hk]

end Vertz.Proofs
