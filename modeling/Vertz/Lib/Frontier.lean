import Mathlib.Algebra.GroupWithZero.Nat
import Mathlib.Data.List.Nodup
import Mathlib.Data.List.Perm.Subperm

/-!
# `Vertz.Lib.Frontier`: breadth first search with a queue

`explore` takes a node off the queue and puts its unvisited successors on
it, until the queue is empty. With one unit of fuel for every node it can
meet it visits exactly what is reachable (`mem_explore_iff`).

`seek` follows labelled edges until it meets a goal. A node is queued
with the labels of the path to it, perhaps more than once, and is visited
when it is expanded. With one unit of fuel for every edge, and two more,
the path it finds is one of the shortest, and it finds one if there is
one (`seek_shortest`).
-/

namespace Vertz.Lib.Frontier

open List

variable {α : Type} [DecidableEq α]

/-- The nodes visited so far and those still to be expanded. -/
structure Search (α : Type) where
  visited : List α
  queue : List α

/-- A node is queued when it is visited for the first time. -/
def Search.visit (search : Search α) (node : α) : Search α :=
  if node ∈ search.visited then search
  else { visited := search.visited ++ [node], queue := search.queue ++ [node] }

/-- Expand the nodes of the queue one after the other. -/
def explore (next : α → List α) : ℕ → Search α → List α
  | 0, search => search.visited
  | fuel + 1, search =>
    match search.queue with
    | [] => search.visited
    | node :: queue =>
      explore next fuel ((next node).foldl Search.visit { search with queue := queue })

/-- What a search has done: the visited nodes are distinct and come from
the space, the queued ones were visited, and the successors of every
visited node that is neither queued nor being expanded were visited. -/
structure Search.Sound (search : Search α) (next : α → List α) (space : List α)
    (starts : List α) (expanding : α → Prop) : Prop where
  nodup : search.visited.Nodup
  bounded : ∀ x ∈ search.visited, x ∈ space
  queued : ∀ x ∈ search.queue, x ∈ search.visited
  closed : ∀ x ∈ search.visited, x ∈ search.queue ∨ expanding x ∨
    ∀ y ∈ next x, y ∈ search.visited
  reachable : ∀ x ∈ search.visited, ∃ start ∈ starts,
    Relation.ReflTransGen (fun a b => b ∈ next a) start x
  started : ∀ start ∈ starts, start ∈ search.visited

variable {next : α → List α} {space starts : List α} {expanding : α → Prop}
  {search : Search α}

theorem Search.mem_visit {node x : α} :
    x ∈ (search.visit node).visited ↔ x ∈ search.visited ∨ x = node := by
  unfold Search.visit
  by_cases h : node ∈ search.visited
  · rw [if_pos h]
    constructor
    · exact Or.inl
    · rintro (hx | rfl)
      · exact hx
      · exact h
  · simp [if_neg h]

/-- Visiting a successor of the node being expanded. -/
theorem Search.Sound.visit {node y : α}
    (h : search.Sound next space starts (fun x => x = node)) (hnode : node ∈ search.visited)
    (hy : y ∈ next node) (hspace : y ∈ space) :
    (search.visit y).Sound next space starts (fun x => x = node) := by
  unfold Search.visit
  by_cases hseen : y ∈ search.visited
  · rw [if_pos hseen]
    exact h
  rw [if_neg hseen]
  refine ⟨?_, ?_, ?_, ?_, ?_,
    fun x hx => mem_append_left _ (h.started x hx)⟩
  · rw [nodup_append]
    refine ⟨h.nodup, nodup_singleton y, ?_⟩
    intro a ha b hb hab
    rw [mem_singleton] at hb
    exact hseen (hb ▸ hab ▸ ha)
  · intro x hx
    rcases mem_append.mp hx with hx | hx
    · exact h.bounded x hx
    · rw [mem_singleton.mp hx]
      exact hspace
  · intro x hx
    rcases mem_append.mp hx with hx | hx
    · exact mem_append_left _ (h.queued x hx)
    · exact mem_append_right _ hx
  · intro x hx
    rcases mem_append.mp hx with hx | hx
    · rcases h.closed x hx with hq | hexp | hnext
      · exact Or.inl (mem_append_left _ hq)
      · exact Or.inr (Or.inl hexp)
      · exact Or.inr (Or.inr fun z hz => mem_append_left _ (hnext z hz))
    · exact Or.inl (mem_append_right _ hx)
  · intro x hx
    rcases mem_append.mp hx with hx | hx
    · exact h.reachable x hx
    · rw [mem_singleton.mp hx]
      obtain ⟨start, hstart, hpath⟩ := h.reachable node hnode
      exact ⟨start, hstart, hpath.tail hy⟩

theorem Search.visit_lengths (search : Search α) (node : α) :
    (search.visit node).visited.length + search.queue.length =
      (search.visit node).queue.length + search.visited.length := by
  unfold Search.visit
  by_cases h : node ∈ search.visited
  · rw [if_pos h]
    omega
  · rw [if_neg h]
    simp only [length_append, length_singleton]
    omega

/-- Visiting all the successors leaves nothing of the node to expand. -/
theorem Search.Sound.expand {node : α} (ys : List α)
    (h : search.Sound next space starts (fun x => x = node)) (hnode : node ∈ search.visited)
    (hys : ∀ y ∈ ys, y ∈ next node) (hspace : ∀ y ∈ next node, y ∈ space) :
    (ys.foldl Search.visit search).Sound next space starts (fun x => x = node) ∧
      (∀ x, x ∈ (ys.foldl Search.visit search).visited ↔ x ∈ search.visited ∨ x ∈ ys) ∧
      (ys.foldl Search.visit search).visited.length + search.queue.length =
        (ys.foldl Search.visit search).queue.length + search.visited.length := by
  induction ys generalizing search with
  | nil => exact ⟨h, fun x => by simp, Nat.add_comm _ _⟩
  | cons y rest ih =>
    have hy := hys y mem_cons_self
    have hvisit := h.visit hnode hy (hspace y hy)
    obtain ⟨hsound, hmem, hlength⟩ := ih hvisit (Search.mem_visit.mpr (Or.inl hnode))
      (fun z hz => hys z (mem_cons_of_mem y hz))
    refine ⟨hsound, fun x => ?_, ?_⟩
    · rw [foldl_cons, hmem, Search.mem_visit, mem_cons]
      tauto
    · have hone := Search.visit_lengths search y
      rw [foldl_cons]
      omega

omit [DecidableEq α] in
/-- With nothing left to expand, everything reachable was visited. -/
theorem Search.Sound.finished (h : search.Sound next space starts (fun _ => False))
    (hempty : search.queue = []) (x : α) :
    x ∈ search.visited ↔
      ∃ start ∈ starts, Relation.ReflTransGen (fun a b => b ∈ next a) start x := by
  refine ⟨h.reachable x, ?_⟩
  rintro ⟨start, hstart, hpath⟩
  induction hpath with
  | refl => exact h.started start hstart
  | tail _ hstep ih =>
    rcases h.closed _ ih with hqueued | hexpanding | hnext
    · rw [hempty] at hqueued
      cases hqueued
    · exact hexpanding.elim
    · exact hnext _ hstep

omit [DecidableEq α] in
/-- Taking a node off the queue is to expand it. -/
theorem Search.Sound.pop {node : α} {queue : List α}
    (h : search.Sound next space starts (fun _ => False)) (hqueue : search.queue = node :: queue) :
    Search.Sound { search with queue := queue } next space starts (fun x => x = node) := by
  refine ⟨h.nodup, h.bounded, ?_, ?_, h.reachable, h.started⟩
  · intro x hx
    exact h.queued x (hqueue ▸ mem_cons_of_mem node hx)
  · intro x hx
    rcases h.closed x hx with hqueued | hexpanding | hnext
    · rw [hqueue, mem_cons] at hqueued
      rcases hqueued with rfl | hqueued
      · exact Or.inr (Or.inl rfl)
      · exact Or.inl hqueued
    · exact hexpanding.elim
    · exact Or.inr (Or.inr hnext)

/-- A sound search with enough fuel ends with everything reachable. -/
theorem mem_explore (hspace : ∀ x, ∀ y ∈ next x, y ∈ space) (fuel : ℕ)
    (h : search.Sound next space starts (fun _ => False))
    (hfuel : space.length + search.queue.length ≤ fuel + search.visited.length) (x : α) :
    x ∈ explore next fuel search ↔
      ∃ start ∈ starts, Relation.ReflTransGen (fun a b => b ∈ next a) start x := by
  induction fuel generalizing search with
  | zero =>
    have hle : search.visited.length ≤ space.length := (h.nodup.subperm h.bounded).length_le
    exact h.finished (eq_nil_of_length_eq_zero (by omega)) x
  | succ fuel ih =>
    rw [explore]
    split
    · next hqueue => exact h.finished hqueue x
    · next node queue hqueue =>
        have hnode : node ∈ search.visited := h.queued node (hqueue ▸ mem_cons_self)
        obtain ⟨hsound, hmem, hlength⟩ :=
          (h.pop hqueue).expand (next node) hnode (fun _ hy => hy) (hspace node)
        refine ih ⟨hsound.nodup, hsound.bounded, hsound.queued, ?_, hsound.reachable,
          hsound.started⟩ ?_
        · intro z hz
          rcases hsound.closed z hz with hqueued | rfl | hnext
          · exact Or.inl hqueued
          · exact Or.inr (Or.inr fun y hy => (hmem y).mpr (Or.inr hy))
          · exact Or.inr (Or.inr hnext)
        · rw [hqueue, length_cons] at hfuel
          simp only at hlength
          omega

/-- The search from some nodes, in a space that holds every successor. -/
theorem mem_explore_all (hspace : ∀ x, ∀ y ∈ next x, y ∈ space) (hstarts : starts.Nodup) (x : α) :
    x ∈ explore next (starts.length + space.length) { visited := starts, queue := starts } ↔
      ∃ start ∈ starts, Relation.ReflTransGen (fun a b => b ∈ next a) start x := by
  have hcons : ∀ a, ∀ b ∈ next a, b ∈ starts ++ space := fun a b hb =>
    mem_append_right starts (hspace a b hb)
  refine mem_explore hcons _ ?_ ?_ x
  · exact ⟨hstarts, fun _ h => mem_append_left _ h, fun _ h => h, fun _ h => Or.inl h,
      fun y hy => ⟨y, hy, .refl⟩, fun _ h => h⟩
  · simp only [length_append]
    omega

/-- The search from one node. -/
theorem mem_explore_iff (hspace : ∀ x, ∀ y ∈ next x, y ∈ space) (start x : α) :
    x ∈ explore next (space.length + 1) { visited := [start], queue := [start] } ↔
      Relation.ReflTransGen (fun a b => b ∈ next a) start x := by
  have hall := mem_explore_all hspace (nodup_singleton start) x
  rw [length_singleton, Nat.add_comm] at hall
  simpa using hall

/-! ### The shortest path to a goal -/

section Shortest

variable {L R : Type}

/-- What a search has come to. -/
inductive Result (L R : Type) where
  | found (labels : List L) (answer : R)
  | missing
  | running

/-- Look at the edges out of a node: at a goal the search ends, and what
was not visited is queued. -/
def expand (goal : α → L → Option R) (visited : List α) (labels : List L) :
    List (α × L) → List (α × List L) → (List L × R) ⊕ List (α × List L)
  | [], queue => .inr queue
  | (target, label) :: edges, queue =>
    if target ∈ visited then expand goal visited labels edges queue
    else
      match goal target label with
      | some answer => .inl (labels ++ [label], answer)
      | none => expand goal visited labels edges (queue ++ [(target, labels ++ [label])])

def seek (out : α → List (α × L)) (goal : α → L → Option R) :
    ℕ → List α → List (α × List L) → Result L R
  | 0, _, _ => .running
  | _ + 1, _, [] => .missing
  | fuel + 1, visited, (node, labels) :: queue =>
    if node ∈ visited then seek out goal fuel visited queue
    else
      match expand goal (node :: visited) labels (out node) queue with
      | .inl (labels, answer) => .found labels answer
      | .inr queue => seek out goal fuel (node :: visited) queue

/-- The labels lead from one node to another. -/
inductive Path (out : α → List (α × L)) (a : α) : List L → α → Prop where
  | here : Path out a [] a
  | step {labels : List L} {b c : α} {label : L} (hpath : Path out a labels b)
      (hedge : (c, label) ∈ out b) : Path out a (labels ++ [label]) c

variable {goal : α → L → Option R}

theorem expand_found {visited : List α} {labels found : List L} {edges : List (α × L)}
    {queue : List (α × List L)} {answer : R}
    (h : expand goal visited labels edges queue = .inl (found, answer)) :
    ∃ target label, (target, label) ∈ edges ∧ goal target label = some answer ∧
      found = labels ++ [label] := by
  induction edges generalizing queue with
  | nil => cases h
  | cons edge edges ih =>
    obtain ⟨target, label⟩ := edge
    rw [expand] at h
    split at h
    · obtain ⟨t, l, hmem, hrest⟩ := ih h
      exact ⟨t, l, mem_cons_of_mem _ hmem, hrest⟩
    · split at h
      · next hgoal =>
          cases h
          exact ⟨target, label, mem_cons_self, hgoal, rfl⟩
      · obtain ⟨t, l, hmem, hrest⟩ := ih h
        exact ⟨t, l, mem_cons_of_mem _ hmem, hrest⟩

theorem expand_queued {visited : List α} {labels : List L} {edges : List (α × L)}
    {queue queue' : List (α × List L)} (h : expand goal visited labels edges queue = .inr queue') :
    ∃ added, queue' = queue ++ added ∧ added.length ≤ edges.length ∧
      (∀ item ∈ added, ∃ label, (item.1, label) ∈ edges ∧ item.2 = labels ++ [label] ∧
        goal item.1 label = none) ∧
      ∀ edge ∈ edges, edge.1 ∈ visited ∨ edge.1 ∈ added.map Prod.fst := by
  induction edges generalizing queue with
  | nil =>
    cases h
    exact ⟨[], (append_nil _).symm, Nat.le_refl 0, by simp, by simp⟩
  | cons edge edges ih =>
    obtain ⟨target, label⟩ := edge
    rw [expand] at h
    split at h
    · next hseen =>
        obtain ⟨added, rfl, hlength, hitems, hedges⟩ := ih h
        refine ⟨added, rfl, Nat.le_succ_of_le hlength, ?_, ?_⟩
        · intro item hitem
          obtain ⟨l, hmem, hrest⟩ := hitems item hitem
          exact ⟨l, mem_cons_of_mem _ hmem, hrest⟩
        · intro edge hedge
          rcases mem_cons.mp hedge with rfl | hedge
          · exact .inl hseen
          · exact hedges edge hedge
    · split at h
      · cases h
      · next hgoal =>
          obtain ⟨added, rfl, hlength, hitems, hedges⟩ := ih h
          refine ⟨(target, labels ++ [label]) :: added, by simp, by simpa using hlength, ?_, ?_⟩
          · intro item hitem
            rcases mem_cons.mp hitem with rfl | hitem
            · exact ⟨label, mem_cons_self, rfl, hgoal⟩
            · obtain ⟨l, hmem, hrest⟩ := hitems item hitem
              exact ⟨l, mem_cons_of_mem _ hmem, hrest⟩
          · intro edge hedge
            rcases mem_cons.mp hedge with rfl | hedge
            · exact .inr mem_cons_self
            · exact (hedges edge hedge).imp_right (mem_cons_of_mem _)

/-- The edges out of the nodes that are still to be visited. -/
def weight (out : α → List (α × L)) (space visited : List α) : ℕ :=
  ((space.filter fun a => a ∉ visited).map fun a => (out a).length).sum

theorem weight_visit (out : α → List (α × L)) {space visited : List α} {node : α}
    (hspace : space.Nodup) (hnode : node ∈ space) (hnew : node ∉ visited) :
    weight out space (node :: visited) + (out node).length = weight out space visited := by
  induction space with
  | nil => cases hnode
  | cons a space ih =>
    obtain ⟨ha, hspace⟩ := nodup_cons.mp hspace
    unfold weight at ih ⊢
    rcases mem_cons.mp hnode with rfl | hnode
    · have hsame : (space.filter fun a => a ∉ node :: visited)
          = space.filter fun a => a ∉ visited := by
        refine filter_congr fun b hb => ?_
        have hne : b ≠ node := fun hbn => ha (hbn ▸ hb)
        simp [hne]
      rw [filter_cons_of_neg (by simp), filter_cons_of_pos (by simpa using hnew), hsame,
        map_cons, sum_cons, Nat.add_comm]
    · have hne : a ≠ node := fun han => ha (han ▸ hnode)
      by_cases hseen : a ∈ visited
      · rw [filter_cons_of_neg (by simp [hseen]), filter_cons_of_neg (by simp [hseen])]
        exact ih hspace hnode
      · rw [filter_cons_of_pos (by simp [hseen, hne]),
          filter_cons_of_pos (by simp [hseen]), map_cons, sum_cons, map_cons,
          sum_cons, Nat.add_assoc]
        exact congrArg ((out a).length + ·) (ih hspace hnode)

/-- Where a search stands: the queue holds paths of one length and then
paths that are longer by one; what shorter paths lead to, and what edges
out of visited nodes lead to, was visited or is queued; no goal is. -/
structure Levels (out : α → List (α × L)) (P : α → Prop) (start : α) (visited : List α)
    (q₁ q₂ : List (α × List L)) (n : ℕ) : Prop where
  first : ∀ item ∈ q₁, Path out start item.2 item.1 ∧ item.2.length = n
  second : ∀ item ∈ q₂, Path out start item.2 item.1 ∧ item.2.length = n + 1
  near : ∀ labels b, Path out start labels b → labels.length ≤ n →
    b ∈ visited ∨ b ∈ q₁.map Prod.fst
  next : ∀ a ∈ visited, ∀ edge ∈ out a, edge.1 ∈ visited ∨ edge.1 ∈ (q₁ ++ q₂).map Prod.fst
  notGoal : ∀ b, b ∈ visited ∨ b ∈ (q₁ ++ q₂).map Prod.fst → ¬ P b

section Levels

variable {out : α → List (α × L)} {goal : α → L → Option R} {P : α → Prop} {start : α}
  {visited : List α} {q₁ q₂ : List (α × List L)} {n : ℕ}

omit [DecidableEq α] in
/-- Once the shorter paths are expanded the others are the shorter ones. -/
theorem Levels.shift (h : Levels out P start visited [] q₂ n) :
    Levels out P start visited q₂ [] (n + 1) where
  first := h.second
  second := fun _ hitem => nomatch hitem
  near := by
    intro labels b hpath hlength
    cases hpath with
    | here =>
      have hstart := h.near [] start .here (Nat.zero_le n)
      exact .inl (hstart.resolve_right (fun h => nomatch h))
    | @step labels c _ label hpath hedge =>
      rw [length_append, length_singleton] at hlength
      have hc := (h.near labels c hpath (by omega)).resolve_right (fun h => nomatch h)
      exact h.next c hc _ hedge
  next := by
    intro a ha edge hedge
    rw [append_nil]
    exact h.next a ha edge hedge
  notGoal := by
    intro b hb
    rw [append_nil] at hb
    exact h.notGoal b hb

omit [DecidableEq α] in
/-- A node that was visited is dropped. -/
theorem Levels.skip {item : α × List L} (h : Levels out P start visited (item :: q₁) q₂ n)
    (hseen : item.1 ∈ visited) : Levels out P start visited q₁ q₂ n where
  first := fun i hi => h.first i (mem_cons_of_mem _ hi)
  second := h.second
  near := by
    intro labels b hpath hlength
    rcases h.near labels b hpath hlength with hb | hb
    · exact .inl hb
    · rcases mem_cons.mp hb with rfl | hb
      · exact .inl hseen
      · exact .inr hb
  next := by
    intro a ha edge hedge
    rcases h.next a ha edge hedge with hb | hb
    · exact .inl hb
    · rcases mem_cons.mp hb with heq | hb
      · exact .inl (heq ▸ hseen)
      · exact .inr hb
  notGoal := fun b hb => h.notGoal b (hb.imp_right (mem_cons_of_mem _))

omit [DecidableEq α] in
/-- A node without a goal next to it is visited, and its successors are
queued. -/
theorem Levels.visit {item : α × List L} (h : Levels out P start visited (item :: q₁) q₂ n)
    (hgoal : ∀ b label, (goal b label).isSome = true ↔ P b) {added : List (α × List L)}
    (hitems : ∀ i ∈ added, ∃ label, (i.1, label) ∈ out item.1 ∧ i.2 = item.2 ++ [label] ∧
      goal i.1 label = none)
    (hedges : ∀ edge ∈ out item.1, edge.1 ∈ item.1 :: visited ∨ edge.1 ∈ added.map Prod.fst) :
    Levels out P start (item.1 :: visited) q₁ (q₂ ++ added) n where
  first := fun i hi => h.first i (mem_cons_of_mem _ hi)
  second := by
    intro i hi
    rcases mem_append.mp hi with hi | hi
    · exact h.second i hi
    · obtain ⟨label, hedge, hlabels, _⟩ := hitems i hi
      obtain ⟨hpath, hlength⟩ := h.first item mem_cons_self
      rw [hlabels, length_append, length_singleton, hlength]
      exact ⟨hpath.step hedge, rfl⟩
  near := by
    intro labels b hpath hlength
    rcases h.near labels b hpath hlength with hb | hb
    · exact .inl (mem_cons_of_mem _ hb)
    · rcases mem_cons.mp hb with rfl | hb
      · exact .inl mem_cons_self
      · exact .inr hb
  next := by
    intro a ha edge hedge
    rw [← append_assoc, map_append, mem_append]
    rcases mem_cons.mp ha with rfl | ha
    · exact (hedges edge hedge).imp_right .inr
    · rcases h.next a ha edge hedge with hb | hb
      · exact .inl (mem_cons_of_mem _ hb)
      · rcases mem_cons.mp hb with heq | hb
        · exact .inl (heq ▸ mem_cons_self)
        · exact .inr (.inl hb)
  notGoal := by
    intro b hb
    rw [← append_assoc, map_append, mem_append, mem_cons] at hb
    rcases hb with (rfl | hb) | hb | hb
    · exact h.notGoal _ (.inr mem_cons_self)
    · exact h.notGoal b (.inl hb)
    · exact h.notGoal b (.inr (mem_cons_of_mem _ hb))
    · obtain ⟨i, hi, rfl⟩ := mem_map.mp hb
      obtain ⟨label, _, _, hnone⟩ := hitems i hi
      rw [← hgoal i.1 label, hnone]
      exact Bool.false_ne_true

omit [DecidableEq α] in
/-- With an empty queue everything reachable was visited. -/
theorem Levels.missing (h : Levels out P start visited [] [] n) {labels : List L} {b : α}
    (hpath : Path out start labels b) : ¬ P b := by
  refine h.notGoal b (.inl ?_)
  induction hpath with
  | here => exact (h.near [] start .here (Nat.zero_le n)).resolve_right (fun h => nomatch h)
  | step _ hedge ih => exact (h.next _ ih _ hedge).resolve_right (fun h => nomatch h)

end Levels

omit [DecidableEq α] in
theorem Path.mem {out : α → List (α × L)} {space : List α}
    (hclosed : ∀ a ∈ space, ∀ edge ∈ out a, edge.1 ∈ space) {start b : α} {labels : List L}
    (h : Path out start labels b) (hstart : start ∈ space) : b ∈ space := by
  induction h with
  | here => exact hstart
  | step _ hedge ih => exact hclosed _ ih _ hedge

/-- The path was found at its last edge, and no path to a goal is shorter. -/
def Shortest (out : α → List (α × L)) (goal : α → L → Option R) (P : α → Prop) (start : α)
    (found : List L) (answer : R) : Prop :=
  (∃ labels label a b, found = labels ++ [label] ∧ Path out start labels a ∧ (b, label) ∈ out a ∧
    goal b label = some answer) ∧
  ∀ labels b, Path out start labels b → P b → found.length ≤ labels.length

theorem seek_levels {out : α → List (α × L)} {P : α → Prop} {start : α}
    (hgoal : ∀ b label, (goal b label).isSome = true ↔ P b) {space : List α} (hspace : space.Nodup)
    (hclosed : ∀ a ∈ space, ∀ edge ∈ out a, edge.1 ∈ space) (hstart : start ∈ space) (fuel : ℕ)
    {visited : List α} {q₁ q₂ : List (α × List L)} {n : ℕ} (h : Levels out P start visited q₁ q₂ n)
    (hfuel : weight out space visited + (q₁ ++ q₂).length < fuel) :
    (∃ labels answer, seek out goal fuel visited (q₁ ++ q₂) = .found labels answer ∧
      Shortest out goal P start labels answer) ∨
    (seek out goal fuel visited (q₁ ++ q₂) = .missing ∧
      ∀ labels b, Path out start labels b → ¬ P b) := by
  induction fuel generalizing visited q₁ q₂ n with
  | zero => omega
  | succ fuel ih =>
    have hcons : ∀ (item : α × List L) (q₁ q₂ : List (α × List L)) (n : ℕ),
        Levels out P start visited (item :: q₁) q₂ n →
        weight out space visited + (q₁ ++ q₂).length < fuel →
        (∃ labels answer,
          seek out goal (fuel + 1) visited (item :: (q₁ ++ q₂)) = .found labels answer ∧
            Shortest out goal P start labels answer) ∨
        (seek out goal (fuel + 1) visited (item :: (q₁ ++ q₂)) = .missing ∧
          ∀ labels b, Path out start labels b → ¬ P b) := by
      intro item q₁ q₂ n h hfuel
      obtain ⟨hpath, hlength⟩ := h.first item mem_cons_self
      rw [seek]
      split
      · next hseen => exact ih (h.skip hseen) hfuel
      · next hnew =>
          split
          · next labels answer hfound =>
              refine .inl ⟨labels, answer, rfl, ?_⟩
              obtain ⟨b, label, hedge, hanswer, rfl⟩ := expand_found hfound
              refine ⟨⟨item.2, label, item.1, b, rfl, hpath, hedge, hanswer⟩, ?_⟩
              intro labels c hc hP
              rw [length_append, length_singleton, hlength]
              by_contra hshort
              refine h.notGoal c ?_ hP
              rcases h.near labels c hc (by omega) with hmem | hmem
              · exact .inl hmem
              · rw [map_append]
                exact .inr (mem_append_left _ hmem)
          · next queue hqueued =>
              obtain ⟨added, rfl, hadded, hitems, hedges⟩ := expand_queued hqueued
              rw [append_assoc]
              refine ih (h.visit hgoal hitems hedges) ?_
              have hweight := weight_visit out hspace (hpath.mem hclosed hstart) hnew
              simp only [length_append] at hfuel ⊢
              omega
    cases q₁ with
    | nil =>
      cases q₂ with
      | nil => exact .inr ⟨rfl, fun _ _ hpath => h.missing hpath⟩
      | cons item q₂ =>
        have hshift := hcons item q₂ [] (n + 1) h.shift
        rw [append_nil] at hshift
        rw [nil_append, length_cons] at hfuel
        exact hshift (by omega)
    | cons item q₁ =>
      rw [cons_append, length_cons] at hfuel
      exact hcons item q₁ q₂ n h (by omega)

/-- From a node that is no goal the search finds one of the shortest paths
to a goal, or there is none. -/
theorem seek_shortest {out : α → List (α × L)} {P : α → Prop} {start : α}
    (hgoal : ∀ b label, (goal b label).isSome = true ↔ P b) {space : List α} (hspace : space.Nodup)
    (hclosed : ∀ a ∈ space, ∀ edge ∈ out a, edge.1 ∈ space) (hstart : start ∈ space)
    (hnot : ¬ P start) {fuel : ℕ} (hfuel : (space.map fun a => (out a).length).sum + 1 < fuel) :
    (∃ labels answer, seek out goal fuel [] [(start, [])] = .found labels answer ∧
      Shortest out goal P start labels answer) ∨
    (seek out goal fuel [] [(start, [])] = .missing ∧
      ∀ labels b, Path out start labels b → ¬ P b) := by
  have hinit : Levels out P start [] [(start, [])] [] 0 := by
    refine ⟨?_, fun _ h => (not_mem_nil h).elim, ?_, fun _ h => (not_mem_nil h).elim, ?_⟩
    · intro item hitem
      rw [mem_singleton.mp hitem]
      exact ⟨.here, rfl⟩
    · intro labels b hpath hlength
      cases hpath with
      | here => exact .inr mem_cons_self
      | step _ _ => simp at hlength
    · rintro b (hb | hb)
      · cases hb
      · rw [mem_singleton.mp hb]
        exact hnot
  refine seek_levels hgoal hspace hclosed hstart fuel hinit ?_
  have hall : weight out space [] = (space.map fun a => (out a).length).sum := by
    simp [weight]
  rw [hall]
  exact hfuel

end Shortest

end Vertz.Lib.Frontier
