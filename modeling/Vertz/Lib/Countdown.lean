import Mathlib.Order.WellFoundedSet

/-!
# `Vertz.Lib.Countdown`: closing the nodes of a graph once their predecessors are closed

A graph on the nodes below `n` is given by its successor lists, in which
a node may stand more than once. Every node has a counter, at first the
number of edges that lead to it. Closing a node lowers the counter of
each of its successors, and a node is free when its counter is zero.

`Front` is what holds at any time, whichever free node is closed next:
the nodes split into the closed, the pending (free and not closed) and
the others, whose counters still count the edges from nodes not closed.
The theorems:

* `mem_freed`: the nodes a step frees are those whose last counted edges
  it takes away.
* `Front.close`: closing a pending node keeps the front.
* `Front.complete`: with nothing pending, every node of a graph without
  cycles is closed.
* `drain_length_iff`: closing first in, first out reaches every node
  exactly when the graph has no cycle.
-/

namespace Vertz.Lib.Countdown

open List

/-! ### One step -/

def lower (degree : ℕ → ℕ) (v : ℕ) : ℕ → ℕ := fun w => if w = v then degree w - 1 else degree w

/-- Lower the counter of each node of the list, and collect the nodes
whose counter becomes zero. -/
def release : (ℕ → ℕ) → List ℕ → (ℕ → ℕ) × List ℕ
  | degree, [] => (degree, [])
  | degree, v :: vs =>
    let rest := release (lower degree v) vs
    (rest.1, if lower degree v v = 0 then v :: rest.2 else rest.2)

theorem release_degree (degree : ℕ → ℕ) (vs : List ℕ) (w : ℕ) :
    (release degree vs).1 w = degree w - vs.count w := by
  induction vs generalizing degree with
  | nil => simp [release]
  | cons v vs ih =>
    show (release (lower degree v) vs).1 w = _
    rw [ih, count_cons]
    by_cases h : w = v
    · simp only [lower, h, if_true, beq_self_eq_true]
      omega
    · have hne : ¬ v = w := fun e => h e.symm
      simp [lower, h, hne]

/-- The counters count what is in the list, and maybe more. -/
def Covers (degree : ℕ → ℕ) (vs : List ℕ) : Prop := ∀ w, vs.count w ≤ degree w

theorem Covers.tail {degree : ℕ → ℕ} {v : ℕ} {vs : List ℕ} (h : Covers degree (v :: vs)) :
    Covers (lower degree v) vs := by
  intro w
  have hw := h w
  rw [count_cons] at hw
  by_cases heq : w = v
  · simp only [lower, heq, if_true, beq_self_eq_true] at hw ⊢
    omega
  · have hne : ¬ v = w := fun e => heq e.symm
    simpa [lower, heq, hne] using hw

theorem mem_freed {degree : ℕ → ℕ} {vs : List ℕ} (h : Covers degree vs) (w : ℕ) :
    w ∈ (release degree vs).2 ↔ w ∈ vs ∧ degree w = vs.count w := by
  induction vs generalizing degree with
  | nil => simp [release]
  | cons v vs ih =>
    have hrest := ih h.tail
    have hv := h v
    have htail := h.tail w
    rw [count_cons_self] at hv
    show w ∈ (if lower degree v v = 0 then v :: (release (lower degree v) vs).2
      else (release (lower degree v) vs).2) ↔ _
    by_cases heq : w = v
    · subst heq
      have hself : lower degree w w = degree w - 1 := if_pos rfl
      rw [count_cons_self, hself]
      by_cases hmem : w ∈ vs
      · have hpos : 0 < vs.count w := count_pos_iff.mpr hmem
        rw [if_neg (by omega), hrest, hself]
        constructor
        · intro hw
          exact ⟨mem_cons_self, by omega⟩
        · intro hw
          exact ⟨hmem, by omega⟩
      · have hzero : vs.count w = 0 := count_eq_zero.mpr hmem
        rw [hzero] at hv ⊢
        by_cases hone : degree w - 1 = 0
        · rw [if_pos hone]
          simp only [mem_cons_self, true_and, true_iff]
          omega
        · rw [if_neg hone, hrest]
          simp only [hmem, false_and, mem_cons_self, true_and, false_iff]
          omega
    · have hne : ¬ v = w := fun e => heq e.symm
      have hlow : lower degree v w = degree w := if_neg heq
      have hcount : (v :: vs).count w = vs.count w := by simp [hne]
      rw [hlow] at hrest
      rw [hcount]
      split <;> simp [hrest, heq]

theorem nodup_freed {degree : ℕ → ℕ} {vs : List ℕ} (h : Covers degree vs) :
    (release degree vs).2.Nodup := by
  induction vs generalizing degree with
  | nil => exact nodup_nil
  | cons v vs ih =>
    show (if lower degree v v = 0 then v :: (release (lower degree v) vs).2
      else (release (lower degree v) vs).2).Nodup
    by_cases hzero : lower degree v v = 0
    · rw [if_pos hzero, nodup_cons]
      refine ⟨?_, ih h.tail⟩
      intro hmem
      -- a zero counter covers no further occurrence
      have hin := (mem_freed h.tail v).mp hmem
      have hpos : 0 < vs.count v := count_pos_iff.mpr hin.1
      omega
    · rw [if_neg hzero]
      exact ih h.tail

/-! ### The front -/

section Graph

variable (succ : ℕ → List ℕ) (n : ℕ)

def Edge (u v : ℕ) : Prop := u < n ∧ v ∈ succ u

def Bounded : Prop := ∀ u < n, ∀ v ∈ succ u, v < n

def Cyclic : Prop := ∃ v, Relation.TransGen (Edge succ n) v v

/-- How many edges lead from the nodes of the list to a node. -/
def arrivals (us : List ℕ) (v : ℕ) : ℕ := (us.flatMap succ).count v

structure Front (degree : ℕ → ℕ) (closed pending : List ℕ) : Prop where
  nodup : (closed ++ pending).Nodup
  below : ∀ v ∈ closed ++ pending, v < n
  counted : ∀ v, degree v + arrivals succ closed v = arrivals succ (List.range n) v
  free : ∀ v < n, v ∈ closed ++ pending ↔ degree v = 0
  /-- No cycle leads to a node that was freed. -/
  grounded : ∀ v ∈ closed ++ pending, Acc (Edge succ n) v

end Graph

variable {succ : ℕ → List ℕ} {n : ℕ} {degree : ℕ → ℕ} {closed pending : List ℕ}

theorem arrivals_append (us vs : List ℕ) (v : ℕ) :
    arrivals succ (us ++ vs) v = arrivals succ us v + arrivals succ vs v := by
  simp [arrivals, flatMap_append, count_append]

theorem arrivals_perm (succ : ℕ → List ℕ) {us vs : List ℕ} (h : us.Perm vs) (v : ℕ) :
    arrivals succ us v = arrivals succ vs v := (h.flatMap_right succ).count_eq v

theorem arrivals_singleton (u v : ℕ) : arrivals succ [u] v = (succ u).count v := by
  simp [arrivals]

theorem arrivals_pos_iff {us : List ℕ} {v : ℕ} : 0 < arrivals succ us v ↔ ∃ u ∈ us, v ∈ succ u := by
  rw [arrivals, count_pos_iff, mem_flatMap]

/-- The nodes below `n` that are not in a list without repetitions. -/
def others (n : ℕ) (us : List ℕ) : List ℕ := (List.range n).filter (fun v => decide (v ∉ us))

theorem mem_others {us : List ℕ} {v : ℕ} : v ∈ others n us ↔ v < n ∧ v ∉ us := by
  simp [others]

theorem perm_others {us : List ℕ} (hnodup : us.Nodup) (hbelow : ∀ v ∈ us, v < n) :
    (us ++ others n us).Perm (List.range n) := by
  have hrest : (others n us).Nodup := nodup_range.filter _
  have hdisjoint : us.Disjoint (others n us) := fun v hv hother => (mem_others.mp hother).2 hv
  rw [perm_ext_iff_of_nodup (hnodup.append hrest hdisjoint) nodup_range]
  intro v
  rw [mem_append, mem_others, mem_range]
  constructor
  · intro h
    rcases h with h | h
    · exact hbelow v h
    · exact h.1
  · intro h
    by_cases hv : v ∈ us
    · exact Or.inl hv
    · exact Or.inr ⟨h, hv⟩

namespace Front

theorem of_perm {closed' pending' : List ℕ} (h : Front succ n degree closed pending)
    (hclosed : closed.Perm closed') (hpending : pending.Perm pending') :
    Front succ n degree closed' pending' := by
  have hall : (closed ++ pending).Perm (closed' ++ pending') := hclosed.append hpending
  have hmem : ∀ v, v ∈ closed' ++ pending' ↔ v ∈ closed ++ pending := fun v => hall.mem_iff.symm
  constructor
  · exact hall.nodup_iff.mp h.nodup
  · intro v hv
    exact h.below v ((hmem v).mp hv)
  · intro v
    rw [← arrivals_perm succ hclosed]
    exact h.counted v
  · intro v hv
    rw [hmem]
    exact h.free v hv
  · intro v hv
    exact h.grounded v ((hmem v).mp hv)

theorem closed_nodup (h : Front succ n degree closed pending) : closed.Nodup :=
  (nodup_append.mp h.nodup).1

theorem closed_below (h : Front succ n degree closed pending) : ∀ v ∈ closed, v < n :=
  fun v hv => h.below v (mem_append_left _ hv)

/-- A counter counts the edges from the nodes that are not closed. -/
theorem degree_eq (h : Front succ n degree closed pending) (v : ℕ) :
    degree v = arrivals succ (others n closed) v := by
  have hperm := arrivals_perm succ (perm_others h.closed_nodup h.closed_below) v
  have hcounted := h.counted v
  rw [arrivals_append] at hperm
  omega

theorem pred_closed (h : Front succ n degree closed pending) {u v : ℕ}
    (hv : v ∈ closed ++ pending) (he : Edge succ n u v) : u ∈ closed := by
  have hzero := (h.free v (h.below v hv)).mp hv
  by_contra hu
  have hpos : 0 < arrivals succ (others n closed) v :=
    arrivals_pos_iff.mpr ⟨u, mem_others.mpr ⟨he.1, hu⟩, he.2⟩
  rw [← h.degree_eq v] at hpos
  omega

/-- A node that is not free yet waits for a node that is not closed. -/
theorem waits (h : Front succ n degree closed pending) {v : ℕ} (hv : v < n)
    (hout : v ∉ closed ++ pending) : ∃ u, Edge succ n u v ∧ u ∉ closed := by
  have hpos : 0 < degree v := Nat.pos_of_ne_zero (fun hzero => hout ((h.free v hv).mpr hzero))
  rw [h.degree_eq v] at hpos
  obtain ⟨u, hu, hmem⟩ := arrivals_pos_iff.mp hpos
  exact ⟨u, ⟨(mem_others.mp hu).1, hmem⟩, (mem_others.mp hu).2⟩

theorem init (succ : ℕ → List ℕ) (n : ℕ) :
    Front succ n (arrivals succ (List.range n)) []
      ((List.range n).filter (fun v => decide (arrivals succ (List.range n) v = 0))) := by
  constructor
  · exact nodup_range.filter _
  · intro v hv
    exact mem_range.mp (mem_of_mem_filter hv)
  · intro v
    rfl
  · intro v hv
    simp [hv]
  · intro v hv
    have hzero : arrivals succ (List.range n) v = 0 := of_decide_eq_true (mem_filter.mp hv).2
    -- no edge leads there
    refine ⟨v, fun u hu => ?_⟩
    have hpos : 0 < arrivals succ (List.range n) v :=
      arrivals_pos_iff.mpr ⟨u, mem_range.mpr hu.1, hu.2⟩
    omega

theorem covers (h : Front succ n degree closed pending) {u : ℕ} (hu : u ∈ pending) :
    Covers degree (succ u) := by
  intro v
  have hclosed : u ∉ closed := fun hin => (nodup_append.mp h.nodup).2.2 u hin u hu rfl
  have hother : u ∈ others n closed := mem_others.mpr ⟨h.below u (mem_append_right _ hu), hclosed⟩
  rw [h.degree_eq v, ← arrivals_singleton u v]
  obtain ⟨us, vs, hsplit⟩ := append_of_mem hother
  rw [hsplit, show us ++ u :: vs = us ++ ([u] ++ vs) from rfl, arrivals_append, arrivals_append]
  omega

/-- Closing a pending node keeps the front: the nodes it frees are pending. -/
theorem close (hbounded : Bounded succ n) {u : ℕ} {rest : List ℕ}
    (h : Front succ n degree closed (u :: rest)) :
    Front succ n (release degree (succ u)).1 (closed ++ [u])
      (rest ++ (release degree (succ u)).2) := by
  have hcovers := h.covers (u := u) mem_cons_self
  have hu : u < n := h.below u (mem_append_right _ mem_cons_self)
  have hpart : (closed ++ [u]) ++ (rest ++ (release degree (succ u)).2) =
      (closed ++ u :: rest) ++ (release degree (succ u)).2 := by simp
  -- a freed node still had a counter, so it was neither closed nor pending
  have hnew : ∀ v ∈ (release degree (succ u)).2, v < n ∧ v ∉ closed ++ u :: rest := by
    intro v hv
    have hfreed := (mem_freed hcovers v).mp hv
    have hlt : v < n := hbounded u hu v hfreed.1
    refine ⟨hlt, fun hin => ?_⟩
    have hzero := (h.free v hlt).mp hin
    have hpos : 0 < (succ u).count v := count_pos_iff.mpr hfreed.1
    omega
  constructor
  · rw [hpart]
    exact h.nodup.append (nodup_freed hcovers) (fun v hin hv => (hnew v hv).2 hin)
  · intro v hv
    rw [hpart, mem_append] at hv
    rcases hv with hv | hv
    · exact h.below v hv
    · exact (hnew v hv).1
  · intro v
    have hc := hcovers v
    have hcounted := h.counted v
    rw [release_degree, arrivals_append, arrivals_singleton]
    omega
  · intro v hlt
    have hc := hcovers v
    rw [hpart, mem_append, h.free v hlt, mem_freed hcovers, release_degree]
    constructor
    · intro hv
      omega
    · intro hzero
      by_cases hmem : v ∈ succ u
      · exact Or.inr ⟨hmem, by omega⟩
      · rw [count_eq_zero.mpr hmem] at hzero
        exact Or.inl (by omega)
  · intro v hv
    rw [hpart, mem_append] at hv
    rcases hv with hv | hv
    · exact h.grounded v hv
    · -- every predecessor of a freed node is closed, and so grounded
      have hfreed := (mem_freed hcovers v).mp hv
      refine ⟨v, fun w hw => h.grounded w ?_⟩
      by_contra hout
      have hother : w ∉ closed ++ [u] := by
        intro hin
        apply hout
        rw [mem_append, mem_cons]
        rcases mem_append.mp hin with hin | hin
        · exact Or.inl hin
        · exact Or.inr (Or.inl (mem_singleton.mp hin))
      have hcounted := h.counted v
      have hdistinct : (closed ++ [u]).Nodup := by
        have hnodup := h.nodup
        rw [show closed ++ u :: rest = (closed ++ [u]) ++ rest by simp] at hnodup
        exact (nodup_append.mp hnodup).1
      have hbelow : ∀ x ∈ closed ++ [u], x < n := by
        intro x hx
        rcases mem_append.mp hx with hx | hx
        · exact h.closed_below x hx
        · rw [mem_singleton.mp hx]
          exact hu
      have hperm := arrivals_perm succ (perm_others hdistinct hbelow) v
      rw [arrivals_append, arrivals_append, arrivals_singleton] at hperm
      have hpos : 0 < arrivals succ (others n (closed ++ [u])) v :=
        arrivals_pos_iff.mpr ⟨w, mem_others.mpr ⟨hw.1, hother⟩, hw.2⟩
      omega

theorem length_le (h : Front succ n degree closed pending) :
    closed.length + pending.length ≤ n := by
  have hsub : (closed ++ pending).Subperm (List.range n) :=
    h.nodup.subperm (fun v hv => mem_range.mpr (h.below v hv))
  have hle := hsub.length_le
  rw [length_append, length_range] at hle
  exact hle

/-- With nothing pending and no cycle, every node is closed. -/
theorem complete (h : Front succ n degree closed []) (hwf : WellFounded (Edge succ n)) {v : ℕ}
    (hv : v < n) : v ∈ closed := by
  induction v using hwf.induction with
  | _ v ih =>
    by_contra hout
    obtain ⟨u, he, hu⟩ := h.waits hv (by simpa using hout)
    exact hu (ih u he he.1)

theorem perm_range (h : Front succ n degree closed pending) (hall : ∀ v < n, v ∈ closed) :
    closed.Perm (List.range n) := by
  rw [perm_ext_iff_of_nodup h.closed_nodup nodup_range]
  intro v
  rw [mem_range]
  exact ⟨h.closed_below v, hall v⟩

end Front

/-! ### Cycles -/

theorem wellFounded_iff (hbounded : Bounded succ n) :
    WellFounded (Edge succ n) ↔ ¬ Cyclic succ n := by
  constructor
  · intro hwf hcycle
    obtain ⟨v, hv⟩ := hcycle
    exact hwf.transGen.irrefl.irrefl v hv
  · intro hacyclic
    have hstrict : IsStrictOrder ℕ (Relation.TransGen (Edge succ n)) :=
      { irrefl := fun v hv => hacyclic ⟨v, hv⟩
        trans := fun _ _ _ => Relation.TransGen.trans }
    have hfinite : (Set.Iio n).WellFoundedOn (Relation.TransGen (Edge succ n)) :=
      (Set.finite_Iio n).wellFoundedOn
    refine Subrelation.wf ?_ (Set.wellFoundedOn_iff.mp hfinite)
    intro u v he
    exact ⟨.single he, he.1, hbounded u he.1 v he.2⟩

/-! ### First in, first out -/

/-- Close the pending nodes in order, those that become free after those
that wait: the nodes in the order they are closed, and the counters that
are left. -/
def drain (succ : ℕ → List ℕ) : ℕ → (ℕ → ℕ) → List ℕ → List ℕ × (ℕ → ℕ)
  | 0, degree, _ => ([], degree)
  | _ + 1, degree, [] => ([], degree)
  | fuel + 1, degree, u :: rest =>
    let next := release degree (succ u)
    let tail := drain succ fuel next.1 (rest ++ next.2)
    (u :: tail.1, tail.2)

/-- With fuel for every node that is not closed, the loop ends with
nothing pending. -/
theorem drain_front (hbounded : Bounded succ n) {fuel : ℕ} (hfuel : closed.length + fuel = n)
    (h : Front succ n degree closed pending) :
    Front succ n (drain succ fuel degree pending).2
      (closed ++ (drain succ fuel degree pending).1) [] := by
  induction fuel generalizing degree closed pending with
  | zero =>
    have hle := h.length_le
    have hnil : pending = [] := eq_nil_of_length_eq_zero (by omega)
    subst hnil
    simpa [drain] using h
  | succ fuel ih =>
    cases pending with
    | nil => simpa [drain] using h
    | cons u rest =>
      have hlen : (closed ++ [u]).length + fuel = n := by
        rw [length_append, length_singleton]
        omega
      have hrest := ih hlen (h.close hbounded)
      rw [append_assoc] at hrest
      exact hrest

theorem drain_length_iff (hbounded : Bounded succ n)
    (h : Front succ n degree [] pending) :
    (drain succ n degree pending).1.length = n ↔ ¬ Cyclic succ n := by
  have hend := drain_front hbounded (show ([] : List ℕ).length + n = n by simp) h
  rw [nil_append] at hend
  rw [← wellFounded_iff hbounded]
  constructor
  · intro hlen
    -- all nodes are closed, and closed nodes are grounded
    have hsub : (drain succ n degree pending).1.Subperm (List.range n) :=
      hend.closed_nodup.subperm (fun v hv => mem_range.mpr (hend.closed_below v hv))
    have hperm := hsub.perm_of_length_le (by rw [length_range, hlen])
    refine ⟨fun v => ⟨v, fun u he => hend.grounded u ?_⟩⟩
    exact mem_append_left _ (hperm.mem_iff.mpr (mem_range.mpr he.1))
  · intro hwf
    have hperm := hend.perm_range (fun v hv => hend.complete hwf hv)
    rw [hperm.length_eq, length_range]

end Vertz.Lib.Countdown
