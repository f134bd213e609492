import Vertz.Lib.Marking
import Vertz.Ui.Runtime.Machine

/-!
# `Vertz.Proofs.RuntimeGraph`: what an operation does to the graph

A graph is looked at through `bodyAt`, `subscribersOf`, `sourcesOf` and
its number of objects. Each operation gets one lemma for each of them,
so that later proofs unfold no operation.

Notification is an instance of `Lib.Marking`: `notifySubscribers_spread`
says what it tells whom.
-/

namespace Vertz.Proofs

open Vertz.Ui.Runtime.NodeGraph
open Vertz.Lib Vertz.Ui.Runtime List

namespace RuntimeGraph

variable {V F E : Type} (g : NodeGraph V F) (id : ℕ)

/-! ### One object -/

/-- What a change of an object leaves alone is as it was. -/
theorem view_modifyNode {α : Type} (view : Node V F → α) (f : Node V F → Node V F)
    (hf : ∀ node, view (f node) = view node) (j : ℕ) :
    (g.modifyNode id f).nodes[j]?.map view = g.nodes[j]?.map view := by
  simp only [modifyNode, getElem?_modify]
  cases g.nodes[j]? with
  | none => rfl
  | some node =>
    by_cases h : id = j
    · simp [h, hf]
    · simp [h]

variable (f : Node V F → Node V F)

theorem bodyAt_of_view (hf : ∀ node, (f node).body = node.body) (j : ℕ) :
    (g.modifyNode id f).bodyAt j = g.bodyAt j :=
  view_modifyNode g id Node.body f hf j

theorem subscribersOf_of_view (hf : ∀ node, (f node).subscribers = node.subscribers) (j : ℕ) :
    (g.modifyNode id f).subscribersOf j = g.subscribersOf j :=
  congrArg (·.getD []) (view_modifyNode g id Node.subscribers f hf j)

theorem sourcesOf_of_view (hf : ∀ node, (f node).sources = node.sources) (j : ℕ) :
    (g.modifyNode id f).sourcesOf j = g.sourcesOf j :=
  congrArg (·.getD []) (view_modifyNode g id Node.sources f hf j)

@[simp] theorem length_modifyNode : (g.modifyNode id f).nodes.length = g.nodes.length := by
  simp [modifyNode]

@[simp] theorem bodyAt_modifyBody (f : Body V F → Body V F) (j : ℕ) :
    (g.modifyBody id f).bodyAt j = if j = id then (g.bodyAt j).map f else g.bodyAt j := by
  simp only [bodyAt, modifyBody, modifyNode, getElem?_modify]
  cases g.nodes[j]? with
  | none => simp
  | some node =>
    by_cases h : id = j
    · simp [h]
    · simp [h, Ne.symm h]

@[simp] theorem subscribersOf_modifyBody (f : Body V F → Body V F) (j : ℕ) :
    (g.modifyBody id f).subscribersOf j = g.subscribersOf j :=
  subscribersOf_of_view g id _ (by intro _; rfl) j

@[simp] theorem sourcesOf_modifyBody (f : Body V F → Body V F) (j : ℕ) :
    (g.modifyBody id f).sourcesOf j = g.sourcesOf j :=
  sourcesOf_of_view g id _ (by intro _; rfl) j

@[simp] theorem length_modifyBody (f : Body V F → Body V F) :
    (g.modifyBody id f).nodes.length = g.nodes.length :=
  length_modifyNode g id _

theorem bodyAt_isSome : (∃ body, g.bodyAt id = some body) ↔ id < g.nodes.length := by
  simp only [bodyAt, Option.map_eq_some_iff]
  constructor
  · intro ⟨_, node, hnode, _⟩
    exact (List.getElem?_eq_some_iff.mp hnode).1
  · intro h
    exact ⟨_, g.nodes[id], getElem?_eq_getElem h, rfl⟩

theorem lt_length {body : Body V F} (h : g.bodyAt id = some body) : id < g.nodes.length :=
  (bodyAt_isSome g id).mp ⟨body, h⟩

/-! ### Edges -/

@[simp] theorem bodyAt_addSubscriber (sub j : ℕ) :
    (g.addSubscriber id sub).bodyAt j = g.bodyAt j :=
  bodyAt_of_view g id _ (by intro _; rfl) j

@[simp] theorem sourcesOf_addSubscriber (sub j : ℕ) :
    (g.addSubscriber id sub).sourcesOf j = g.sourcesOf j :=
  sourcesOf_of_view g id _ (by intro _; rfl) j

@[simp] theorem length_addSubscriber (sub : ℕ) :
    (g.addSubscriber id sub).nodes.length = g.nodes.length :=
  length_modifyNode g id _

@[simp] theorem mem_subscribersOf_addSubscriber (sub j k : ℕ) :
    k ∈ (g.addSubscriber id sub).subscribersOf j ↔
      k ∈ g.subscribersOf j ∨ j = id ∧ k = sub ∧ id < g.nodes.length := by
  simp only [subscribersOf, addSubscriber, modifyNode,
    getElem?_modify]
  by_cases h : id = j
  · subst h
    by_cases hlt : id < g.nodes.length
    · simp [hlt]
    · simp [hlt]
  · have h' : j ≠ id := Ne.symm h
    cases g.nodes[j]? <;> simp [h, h']

@[simp] theorem bodyAt_addSource (sub j : ℕ) : (g.addSource sub id).bodyAt j = g.bodyAt j :=
  bodyAt_of_view g sub _ (by intro _; rfl) j

@[simp] theorem subscribersOf_addSource (sub j : ℕ) :
    (g.addSource sub id).subscribersOf j = g.subscribersOf j :=
  subscribersOf_of_view g sub _ (by intro _; rfl) j

@[simp] theorem mem_sourcesOf_addSource (sub j k : ℕ) :
    k ∈ (g.addSource sub id).sourcesOf j ↔
      k ∈ g.sourcesOf j ∨ j = sub ∧ k = id ∧ sub < g.nodes.length := by
  simp only [sourcesOf, addSource, modifyNode, getElem?_modify]
  by_cases h : sub = j
  · subst h
    by_cases hlt : sub < g.nodes.length
    · simp [hlt]
    · simp [hlt]
  · have h' : j ≠ sub := Ne.symm h
    cases g.nodes[j]? <;> simp [h, h']

@[simp] theorem bodyAt_deleteSubscriber (sub j : ℕ) :
    (g.deleteSubscriber id sub).bodyAt j = g.bodyAt j :=
  bodyAt_of_view g id _ (by intro _; rfl) j

@[simp] theorem sourcesOf_deleteSubscriber (sub j : ℕ) :
    (g.deleteSubscriber id sub).sourcesOf j = g.sourcesOf j :=
  sourcesOf_of_view g id _ (by intro _; rfl) j

@[simp] theorem length_deleteSubscriber (sub : ℕ) :
    (g.deleteSubscriber id sub).nodes.length = g.nodes.length :=
  length_modifyNode g id _

@[simp] theorem mem_subscribersOf_deleteSubscriber (sub j k : ℕ) :
    k ∈ (g.deleteSubscriber id sub).subscribersOf j ↔
      k ∈ g.subscribersOf j ∧ ¬ (j = id ∧ k = sub) := by
  simp only [subscribersOf, deleteSubscriber, modifyNode,
    getElem?_modify]
  by_cases h : id = j
  · subst h
    cases g.nodes[id]? <;> simp
  · have h' : j ≠ id := Ne.symm h
    cases g.nodes[j]? <;> simp [h, h']

/-- A subscriber is deleted from a list of sources. -/
def deleteFrom (sources : List ℕ) : NodeGraph V F :=
  sources.foldl (fun g source => g.deleteSubscriber source id) g

theorem deleteFrom_spec (sources : List ℕ) :
    (∀ j, (deleteFrom g id sources).bodyAt j = g.bodyAt j) ∧
      (∀ j, (deleteFrom g id sources).sourcesOf j = g.sourcesOf j) ∧
      (deleteFrom g id sources).nodes.length = g.nodes.length ∧
      ∀ j k, k ∈ (deleteFrom g id sources).subscribersOf j ↔
        k ∈ g.subscribersOf j ∧ ¬ (k = id ∧ j ∈ sources) := by
  induction sources generalizing g with
  | nil => simp [deleteFrom]
  | cons source sources ih =>
    obtain ⟨hbody, hsources, hlength, hsubs⟩ := ih (g.deleteSubscriber source id)
    have hcons : deleteFrom g id (source :: sources) =
        deleteFrom (g.deleteSubscriber source id) id sources := rfl
    rw [hcons]
    refine ⟨fun j => by simp [hbody], fun j => by simp [hsources], by simp [hlength], ?_⟩
    intro j k
    rw [hsubs, mem_subscribersOf_deleteSubscriber, mem_cons]
    tauto

theorem clearSources_eq : g.clearSources id =
    (deleteFrom g id (g.sourcesOf id)).modifyNode id fun node => { node with sources := [] } := rfl

variable (j : ℕ)

@[simp] theorem bodyAt_clearSources : (g.clearSources id).bodyAt j = g.bodyAt j := by
  rw [clearSources_eq, bodyAt_of_view _ id _ (by intro _; rfl)]
  exact (deleteFrom_spec g id (g.sourcesOf id)).1 j

@[simp] theorem sourcesOf_clearSources :
    (g.clearSources id).sourcesOf j = if j = id then [] else g.sourcesOf j := by
  have hdelete := (deleteFrom_spec g id (g.sourcesOf id)).2.1 j
  rw [clearSources_eq, ← hdelete]
  generalize deleteFrom g id (g.sourcesOf id) = g'
  simp only [sourcesOf, modifyNode, getElem?_modify]
  cases g'.nodes[j]? with
  | none => simp
  | some node =>
    by_cases h : id = j
    · simp [h]
    · simp [h, Ne.symm h]

@[simp] theorem mem_subscribersOf_clearSources (j k : ℕ) :
    k ∈ (g.clearSources id).subscribersOf j ↔
      k ∈ g.subscribersOf j ∧ ¬ (k = id ∧ j ∈ g.sourcesOf id) := by
  rw [clearSources_eq, subscribersOf_of_view _ id _ (by intro _; rfl)]
  exact (deleteFrom_spec g id (g.sourcesOf id)).2.2.2 j k

@[simp] theorem length_clearSources : (g.clearSources id).nodes.length = g.nodes.length := by
  rw [clearSources_eq, length_modifyNode]
  exact (deleteFrom_spec g id (g.sourcesOf id)).2.2.1

theorem deleteFrom_nodes (sources : List ℕ) :
    ∃ nodes, deleteFrom g id sources = { g with nodes := nodes } := by
  induction sources generalizing g with
  | nil => exact ⟨g.nodes, rfl⟩
  | cons source sources ih => exact ih (g.deleteSubscriber source id)

theorem clearSources_nodes : ∃ nodes, g.clearSources id = { g with nodes := nodes } := by
  obtain ⟨nodes, hnodes⟩ := deleteFrom_nodes g id (g.sourcesOf id)
  rw [clearSources_eq, hnodes]
  exact ⟨_, rfl⟩

@[simp] theorem currentSubscriber_clearSources :
    (g.clearSources id).currentSubscriber = g.currentSubscriber := by
  obtain ⟨nodes, hnodes⟩ := clearSources_nodes g id
  rw [hnodes]

@[simp] theorem batchDepth_clearSources : (g.clearSources id).batchDepth = g.batchDepth := by
  obtain ⟨nodes, hnodes⟩ := clearSources_nodes g id
  rw [hnodes]

@[simp] theorem pendingEffects_clearSources :
    (g.clearSources id).pendingEffects = g.pendingEffects := by
  obtain ⟨nodes, hnodes⟩ := clearSources_nodes g id
  rw [hnodes]

@[simp] theorem bodyAt_track : (g.track id).bodyAt j = g.bodyAt j := by
  rw [track]
  cases g.currentSubscriber <;> simp

theorem mem_subscribersOf_track (j k : ℕ) :
    k ∈ (g.track id).subscribersOf j ↔
      k ∈ g.subscribersOf j ∨ g.currentSubscriber = some k ∧ j = id ∧ id < g.nodes.length := by
  rw [track]
  cases g.currentSubscriber with
  | none => simp
  | some sub =>
    simp only [subscribersOf_addSource, mem_subscribersOf_addSubscriber, Option.some.injEq]
    constructor
    · rintro (h | ⟨rfl, rfl, h⟩)
      · exact Or.inl h
      · exact Or.inr ⟨rfl, rfl, h⟩
    · rintro (h | ⟨rfl, rfl, h⟩)
      · exact Or.inl h
      · exact Or.inr ⟨rfl, rfl, h⟩

theorem mem_sourcesOf_track (j k : ℕ) :
    k ∈ (g.track id).sourcesOf j ↔
      k ∈ g.sourcesOf j ∨ g.currentSubscriber = some j ∧ k = id ∧ j < g.nodes.length := by
  rw [track]
  cases g.currentSubscriber with
  | none => simp
  | some sub =>
    simp only [mem_sourcesOf_addSource, sourcesOf_addSubscriber, length_addSubscriber,
      Option.some.injEq]
    constructor
    · rintro (h | ⟨rfl, rfl, h⟩)
      · exact Or.inl h
      · exact Or.inr ⟨rfl, rfl, h⟩
    · rintro (h | ⟨rfl, rfl, h⟩)
      · exact Or.inl h
      · exact Or.inr ⟨rfl, rfl, h⟩

/-! ### Creation -/

variable (body : Body V F)

@[simp] theorem length_create : (g.create body).nodes.length = g.nodes.length + 1 := by
  simp [create]

theorem nodes_create (j : ℕ) :
    (g.create body).nodes[j]? =
      if j = g.nodes.length then some { body := body } else g.nodes[j]? := by
  rw [create, getElem?_append]
  rcases Nat.lt_trichotomy j g.nodes.length with h | h | h
  · rw [if_pos h, if_neg (Nat.ne_of_lt h)]
  · simp [h]
  · rw [if_neg (by omega), if_neg (by omega), getElem?_eq_none (by simp; omega),
      getElem?_eq_none (by omega)]

@[simp] theorem bodyAt_create (j : ℕ) :
    (g.create body).bodyAt j = if j = g.nodes.length then some body else g.bodyAt j := by
  rw [bodyAt, nodes_create]
  by_cases h : j = g.nodes.length
  · simp [h]
  · simp [h, bodyAt]

@[simp] theorem subscribersOf_create (j : ℕ) :
    (g.create body).subscribersOf j = g.subscribersOf j := by
  rw [subscribersOf, nodes_create]
  by_cases h : j = g.nodes.length
  · simp [h, subscribersOf]
  · simp [h, subscribersOf]

@[simp] theorem sourcesOf_create (j : ℕ) : (g.create body).sourcesOf j = g.sourcesOf j := by
  rw [sourcesOf, nodes_create]
  by_cases h : j = g.nodes.length
  · simp [h, sourcesOf]
  · simp [h, sourcesOf]

/-! ### Runs -/

@[simp] theorem bodyAt_setSubscriber (sub : Option ℕ) (j : ℕ) :
    (g.setSubscriber sub).bodyAt j = g.bodyAt j := rfl

@[simp] theorem subscribersOf_setSubscriber (sub : Option ℕ) (j : ℕ) :
    (g.setSubscriber sub).subscribersOf j = g.subscribersOf j := rfl

@[simp] theorem sourcesOf_setSubscriber (sub : Option ℕ) (j : ℕ) :
    (g.setSubscriber sub).sourcesOf j = g.sourcesOf j := rfl

@[simp] theorem bodyAt_beginCompute : (g.beginCompute id).bodyAt j =
      if j = id then (g.bodyAt j).map (.setState .computing) else g.bodyAt j := by
  simp [beginCompute]

@[simp] theorem mem_subscribersOf_beginCompute (j k : ℕ) :
    k ∈ (g.beginCompute id).subscribersOf j ↔
      k ∈ g.subscribersOf j ∧ ¬ (k = id ∧ j ∈ g.sourcesOf id) := by
  simp [beginCompute]

@[simp] theorem sourcesOf_beginCompute :
    (g.beginCompute id).sourcesOf j = if j = id then [] else g.sourcesOf j := by
  simp [beginCompute]

/-- What a computed is after its function returned or threw. -/
def computedTo (outcome : Except E V) (body : Body V F) : Body V F :=
  match outcome with
  | .ok newValue => (body.setCached newValue).setState .clean
  | .error _ => body.setState .clean

@[simp] theorem bodyAt_endCompute (prev : Option ℕ) (outcome : Except E V) (j : ℕ) :
    (g.endCompute id prev outcome).bodyAt j =
      if j = id then (g.bodyAt j).map (computedTo outcome) else g.bodyAt j := by
  cases outcome with
  | ok newValue =>
    by_cases h : j = id
    · simp only [endCompute, bodyAt_modifyBody, bodyAt_setSubscriber, h, if_true,
        Option.map_map]
      rfl
    · simp [endCompute, h]
  | error e =>
    by_cases h : j = id
    · simp only [endCompute, bodyAt_modifyBody, bodyAt_setSubscriber, h, if_true]
      rfl
    · simp [endCompute, h]

@[simp] theorem subscribersOf_endCompute (prev : Option ℕ) (outcome : Except E V) (j : ℕ) :
    (g.endCompute id prev outcome).subscribersOf j = g.subscribersOf j := by
  cases outcome <;> simp [endCompute]

@[simp] theorem sourcesOf_endCompute (prev : Option ℕ) (outcome : Except E V) (j : ℕ) :
    (g.endCompute id prev outcome).sourcesOf j = g.sourcesOf j := by
  cases outcome <;> simp [endCompute]

@[simp] theorem bodyAt_beginRun : (g.beginRun id).bodyAt j = g.bodyAt j := by
  simp [beginRun]

@[simp] theorem mem_subscribersOf_beginRun (j k : ℕ) :
    k ∈ (g.beginRun id).subscribersOf j ↔
      k ∈ g.subscribersOf j ∧ ¬ (k = id ∧ j ∈ g.sourcesOf id) := by
  simp [beginRun]

@[simp] theorem sourcesOf_beginRun :
    (g.beginRun id).sourcesOf j = if j = id then [] else g.sourcesOf j := by
  simp [beginRun]

@[simp] theorem length_beginRun : (g.beginRun id).nodes.length = g.nodes.length := by
  simp [beginRun, setSubscriber]

@[simp] theorem bodyAt_dispose : (g.dispose id).bodyAt j =
      if j = id then (g.bodyAt j).map Body.setDisposed else g.bodyAt j := by
  simp [dispose]

@[simp] theorem mem_subscribersOf_dispose (j k : ℕ) :
    k ∈ (g.dispose id).subscribersOf j ↔
      k ∈ g.subscribersOf j ∧ ¬ (k = id ∧ j ∈ g.sourcesOf id) := by
  simp [dispose]

@[simp] theorem sourcesOf_dispose :
    (g.dispose id).sourcesOf j = if j = id then [] else g.sourcesOf j := by
  simp [dispose]

/-! ### Notification -/

/-- A computed that is not dirty, in one object. -/
def isUnmarked : Body V F → Bool
  | .computed _ _ state => decide (state ≠ .dirty)
  | _ => false

/-- How a notification is passed on. -/
def notifier : Notifier (NodeGraph V F) ℕ where
  passes g id := (g.bodyAt id).any isUnmarked
  mark g id := g.modifyBody id (.setState .dirty)
  subscribers g id := g.subscribersOf id
  take g id :=
    match g.bodyAt id with
    | some (.effect _ _) => g.queueEffect id
    | _ => g

theorem scheduleNotify_eq (depth : ℕ) (g : NodeGraph V F) (id : ℕ) :
    g.scheduleNotify depth id = notifier.notify depth g id := by
  induction depth generalizing g id with
  | zero => rfl
  | succ depth ih =>
    have hih : scheduleNotify depth = notifier.notify (S := NodeGraph V F) depth := by
      funext g id
      exact ih g id
    rw [scheduleNotify, Notifier.notify, hih]
    cases hbody : g.bodyAt id with
    | none => simp [notifier, hbody]
    | some body =>
      cases body with
      | signal value => simp [notifier, hbody, isUnmarked]
      | effect fn disposed => simp [notifier, hbody, isUnmarked]
      | computed fn cached state =>
        by_cases hstate : state = .dirty
        · simp [notifier, hbody, isUnmarked, hstate]
        · simp [notifier, hbody, isUnmarked, hstate]

/-- The computeds that are not dirty. -/
def unmarked (g : NodeGraph V F) : ℕ := g.nodes.countP fun node => isUnmarked node.body

/-- An object has heard of a change: a computed is dirty, an effect is in
the queue. -/
def Told (g : NodeGraph V F) (id : ℕ) : Prop :=
  match g.bodyAt id with
  | some (.computed _ _ state) => state = .dirty
  | some (.effect _ _) => id ∈ g.pendingEffects
  | _ => True

@[simp] theorem bodyAt_queueEffect : (g.queueEffect id).bodyAt j = g.bodyAt j := rfl

theorem countP_modify_lt {α : Type} {p : α → Bool} {f : α → α} {xs : List α} {i : ℕ} {x : α}
    (hx : xs[i]? = some x) (hp : p x = true) (hf : p (f x) = false) :
    (xs.modify i f).countP p < xs.countP p := by
  induction xs generalizing i with
  | nil => cases hx
  | cons y ys ih =>
    cases i with
    | zero =>
      cases hx
      simp [modify_zero_cons, hp, hf]
    | succ i =>
      rw [modify_succ_cons, countP_cons, countP_cons]
      have hlt := ih (i := i) hx
      omega

theorem told_congr {g g' : NodeGraph V F} (hbody : g'.bodyAt id = g.bodyAt id)
    (hpending : ∀ e ∈ g.pendingEffects, e ∈ g'.pendingEffects) (h : Told g id) : Told g' id := by
  rw [Told, hbody]
  rw [Told] at h
  split at h
  · exact h
  · exact hpending _ h
  · trivial

theorem notifier_lawful : (notifier (V := V) (F := F)).Lawful unmarked Told where
  passes_mark := by
    intro g id hid j
    show (Option.any isUnmarked ((g.modifyBody id (.setState .dirty)).bodyAt j) = true) ↔ _
    rw [bodyAt_modifyBody]
    by_cases h : j = id
    · simp only [h, if_true, not_true, and_false, iff_false, ne_eq]
      rcases g.bodyAt id with _ | _ | _ | _ <;> simp [Body.setState, isUnmarked]
    · simp [h, notifier]
  subscribers_mark := fun _ j => subscribersOf_modifyBody _ _ _ j
  size_mark := by
    intro g id hid
    replace hid : Option.any isUnmarked (g.bodyAt id) = true := hid
    obtain ⟨node, hnode⟩ : ∃ node, g.nodes[id]? = some node := by
      cases hnode : g.nodes[id]? with
      | none => simp [bodyAt, hnode] at hid
      | some node => exact ⟨node, rfl⟩
    have hunmarked : isUnmarked node.body = true := by
      simpa [bodyAt, hnode] using hid
    apply countP_modify_lt hnode hunmarked
    show isUnmarked (node.body.setState .dirty) = false
    cases node.body <;> simp [Body.setState, isUnmarked]
  passes_take := by
    intro g id j
    simp only [notifier]
    split <;> rfl
  subscribers_take := by
    intro g id j
    simp only [notifier]
    split <;> rfl
  size_take := by
    intro g id
    simp only [notifier]
    split <;> rfl
  told_mark := by
    intro g id hid
    replace hid : Option.any isUnmarked (g.bodyAt id) = true := hid
    show Told (g.modifyBody id (.setState .dirty)) id
    rw [Told, bodyAt_modifyBody, if_pos rfl]
    rcases hbody : g.bodyAt id with _ | _ | ⟨fn, cached, state⟩ | _
    · trivial
    · trivial
    · rfl
    · simp [hbody, isUnmarked] at hid
  told_take := by
    intro g id hid
    replace hid : Option.any isUnmarked (g.bodyAt id) = false := hid
    simp only [notifier]
    rcases hbody : g.bodyAt id with _ | _ | ⟨fn, cached, state⟩ | _
    · simp [Told, hbody]
    · simp [Told, hbody]
    · simpa [Told, hbody, isUnmarked] using hid
    · show Told (g.queueEffect id) id
      rw [Told, bodyAt_queueEffect, hbody]
      exact mem_setAdd.mpr (Or.inr rfl)
  mark_told := by
    intro g id j hid h
    show Told (g.modifyBody id (.setState .dirty)) j
    by_cases hj : j = id
    · subst hj
      rw [Told, bodyAt_modifyBody, if_pos rfl]
      rw [Told] at h
      rcases hbody : g.bodyAt j with _ | _ | ⟨fn, cached, state⟩ | _
      · trivial
      · trivial
      · rfl
      · rw [hbody] at h
        exact h
    · have hbody : (g.modifyBody id (.setState .dirty)).bodyAt j = g.bodyAt j := by
        rw [bodyAt_modifyBody, if_neg hj]
      exact told_congr j hbody (fun _ he => he) h
  take_told := by
    intro g id j h
    simp only [notifier]
    split
    · have hbody : (g.queueEffect id).bodyAt j = g.bodyAt j := rfl
      exact told_congr j hbody (fun e he => mem_setAdd.mpr (Or.inl he)) h
    · exact h

/-- What a notification changes. -/
structure Notified (g g' : NodeGraph V F) : Prop where
  body : ∀ j, g'.bodyAt j = g.bodyAt j ∨ ∃ fn cached state,
    g.bodyAt j = some (.computed fn cached state) ∧
      g'.bodyAt j = some (.computed fn cached .dirty)
  subscribers : ∀ j, g'.subscribersOf j = g.subscribersOf j
  sources : ∀ j, g'.sourcesOf j = g.sourcesOf j
  length : g'.nodes.length = g.nodes.length
  current : g'.currentSubscriber = g.currentSubscriber
  depth : g'.batchDepth = g.batchDepth
  hydrating : g'.isHydrating = g.isHydrating
  deferred : g'.deferredEffects = g.deferredEffects
  pending : ∀ e ∈ g.pendingEffects, e ∈ g'.pendingEffects

theorem Notified.refl (g : NodeGraph V F) : Notified g g :=
  ⟨fun _ => Or.inl rfl, fun _ => rfl, fun _ => rfl, rfl, rfl, rfl, rfl, rfl, fun _ he => he⟩

theorem Notified.mark {g g' : NodeGraph V F} (h : Notified g g') (id : ℕ) :
    Notified g (g'.modifyBody id (.setState .dirty)) where
  body := by
    intro j
    rw [bodyAt_modifyBody]
    by_cases hj : j = id
    · rw [if_pos hj]
      rcases h.body j with hbody | ⟨fn, cached, state, hbody, hbody'⟩
      · rw [hbody]
        rcases hg : g.bodyAt j with _ | _ | ⟨fn, cached, state⟩ | _
        · exact Or.inl rfl
        · exact Or.inl rfl
        · exact Or.inr ⟨fn, cached, state, rfl, rfl⟩
        · exact Or.inl rfl
      · rw [hbody']
        exact Or.inr ⟨fn, cached, state, hbody, rfl⟩
    · rw [if_neg hj]
      exact h.body j
  subscribers := fun j => (subscribersOf_modifyBody g' id _ j).trans (h.subscribers j)
  sources := fun j => (sourcesOf_modifyBody g' id _ j).trans (h.sources j)
  length := (length_modifyBody g' id _).trans h.length
  current := h.current
  depth := h.depth
  hydrating := h.hydrating
  deferred := h.deferred
  pending := h.pending

theorem Notified.queue {g g' : NodeGraph V F} (h : Notified g g') (id : ℕ) :
    Notified g (g'.queueEffect id) :=
  { h with pending := fun e he => mem_setAdd.mpr (Or.inl (h.pending e he)) }

/-- What is told about a change of an object, and what stays as it is. -/
structure Announced (id : ℕ) (g g' : NodeGraph V F) : Prop extends Notified g g' where
  told : ∀ k ∈ g.subscribersOf id, Told g' k
  /-- A computed that became dirty has told its own subscribers. -/
  passedOn : ∀ d fn cached state, g.bodyAt d = some (.computed fn cached state) →
    state ≠ .dirty → g'.bodyAt d = some (.computed fn cached .dirty) →
    ∀ k ∈ g.subscribersOf d, Told g' k

theorem notifySubscribers_announced (g : NodeGraph V F) (id : ℕ) :
    Announced id g (g.notifySubscribers id) := by
  have hfun : scheduleNotify (g.nodes.length + 1) =
      notifier.notify (S := NodeGraph V F) (g.nodes.length + 1) := by
    funext g' id'
    exact scheduleNotify_eq _ g' id'
  have hsize : unmarked g.enterBatch < g.nodes.length + 1 :=
    Nat.lt_succ_of_le countP_le_length
  have hspread := Notifier.notifyAll_spread notifier_lawful hsize (g.subscribersOf id)
  have hnotified : Notified g.enterBatch
      ((g.subscribersOf id).foldl (notifier.notify (g.nodes.length + 1)) g.enterBatch) := by
    refine List.foldlRecOn (motive := Notified g.enterBatch) _ _ (.refl _) ?_
    intro g' hg' k _
    refine Notifier.notify_invariant ?_ ?_ _ k hg'
    · exact fun g'' j _ h => h.mark j
    · intro g'' j _ h
      show Notified _ (match g''.bodyAt j with
        | some (.effect _ _) => g''.queueEffect j
        | _ => g'')
      split
      · exact h.queue j
      · exact h
  rw [notifySubscribers, hfun]
  generalize (g.subscribersOf id).foldl (notifier.notify (g.nodes.length + 1)) g.enterBatch = g' at *
  have hdepth : g'.leaveBatch.batchDepth = g.batchDepth := by
    show g'.batchDepth - 1 = g.batchDepth
    rw [hnotified.depth]
    exact Nat.add_sub_cancel g.batchDepth 1
  exact
    { hnotified with
      depth := hdepth
      told := hspread.told
      passedOn := by
        intro d fn cached state hbody hstate hbody' k hk
        refine hspread.spread d ?_ ?_ k hk
        · show Option.any isUnmarked (g.bodyAt d) = true
          simp [hbody, isUnmarked, hstate]
        · show Option.any isUnmarked (g'.bodyAt d) = false
          have hd : g'.bodyAt d = some (.computed fn cached .dirty) := hbody'
          simp [hd, isUnmarked] }

end RuntimeGraph

end Vertz.Proofs
