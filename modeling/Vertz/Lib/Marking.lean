import Mathlib.Data.List.Basic

/-!
# `Vertz.Lib.Marking`: passing a notification on

Depth first search that marks what it reaches. A node that is not marked
yet is marked and passes the notification on to its subscribers; any
other node takes it in.

With more fuel than there are nodes to mark, everything is told:
`notifyAll_spread` says that the nodes notified are told, that so are
the subscribers of every node that was marked, and that only nodes on a
path from a notified one were marked.
-/

namespace Vertz.Lib

/-- A state whose nodes pass notifications on. -/
structure Notifier (S K : Type) where
  /-- The node is not marked, and passes the notification on. -/
  passes : S → K → Bool
  mark : S → K → S
  subscribers : S → K → List K
  /-- A node that does not pass it on takes the notification in. -/
  take : S → K → S

namespace Notifier

variable {S K : Type} (N : Notifier S K)

def notify : ℕ → S → K → S
  | 0, s, _ => s
  | fuel + 1, s, k =>
    if N.passes s k then (N.subscribers s k).foldl (notify fuel) (N.mark s k)
    else N.take s k

/-- A notification of the first node marks the second. -/
inductive Path (s : S) : K → K → Prop where
  | here {k : K} (h : N.passes s k = true) : Path s k k
  | there {k j d : K} (h : N.passes s k = true) (hj : j ∈ N.subscribers s k)
      (hrest : Path s j d) : Path s k d

/-- Marking a node marks that node and touches no edge. `size` counts
what is left to mark, and `Told` is what a node is after it was
notified. -/
structure Lawful (size : S → ℕ) (Told : S → K → Prop) : Prop where
  passes_mark : ∀ {s k}, N.passes s k = true → ∀ j,
    (N.passes (N.mark s k) j = true ↔ N.passes s j = true ∧ j ≠ k)
  subscribers_mark : ∀ {s k}, N.passes s k = true → ∀ j,
    N.subscribers (N.mark s k) j = N.subscribers s j
  size_mark : ∀ {s k}, N.passes s k = true → size (N.mark s k) < size s
  passes_take : ∀ s k j, N.passes (N.take s k) j = N.passes s j
  subscribers_take : ∀ s k j, N.subscribers (N.take s k) j = N.subscribers s j
  size_take : ∀ s k, size (N.take s k) = size s
  told_mark : ∀ {s k}, N.passes s k = true → Told (N.mark s k) k
  told_take : ∀ {s k}, N.passes s k = false → Told (N.take s k) k
  mark_told : ∀ {s k j}, N.passes s k = true → Told s j → Told (N.mark s k) j
  take_told : ∀ {s k j}, Told s j → Told (N.take s k) j

/-- What notifying a list of nodes amounts to. -/
structure Spread (Told : S → K → Prop) (s s' : S) (ks : List K) : Prop where
  told : ∀ k ∈ ks, Told s' k
  spread : ∀ d, N.passes s d = true → N.passes s' d = false →
    ∀ j ∈ N.subscribers s d, Told s' j
  reached : ∀ d, N.passes s d = true → N.passes s' d = false → ∃ k ∈ ks, N.Path s k d
  passes : ∀ d, N.passes s' d = true → N.passes s d = true
  subscribers : ∀ d, N.subscribers s' d = N.subscribers s d
  mono : ∀ j, Told s j → Told s' j

variable {N} {size : S → ℕ} {Told : S → K → Prop}

/-- What marking and taking in keep, notifying keeps. -/
theorem notify_invariant {I : S → Prop}
    (hmark : ∀ s k, N.passes s k = true → I s → I (N.mark s k))
    (htake : ∀ s k, N.passes s k = false → I s → I (N.take s k)) (fuel : ℕ) {s : S} (k : K)
    (hs : I s) : I (N.notify fuel s k) := by
  induction fuel generalizing s k with
  | zero => exact hs
  | succ fuel ih =>
    rw [notify]
    cases hp : N.passes s k with
    | false => exact htake s k hp hs
    | true => exact List.foldlRecOn (motive := I) _ _ (hmark s k hp hs) fun _ h j _ => ih j h

theorem Path.of_subset {s s' : S} {k d : K} (h : N.Path s' k d)
    (hpasses : ∀ j, N.passes s' j = true → N.passes s j = true)
    (hsubs : ∀ j, N.subscribers s' j = N.subscribers s j) : N.Path s k d := by
  induction h with
  | here h => exact .here (hpasses _ h)
  | there h hj _ ih => exact .there (hpasses _ h) (hsubs _ ▸ hj) ih

theorem Spread.nil (s : S) : N.Spread Told s s [] where
  told := by
    intro k hk
    cases hk
  spread := by
    intro d h h'
    rw [h] at h'
    cases h'
  reached := by
    intro d h h'
    rw [h] at h'
    cases h'
  passes := fun _ h => h
  subscribers := fun _ => rfl
  mono := fun _ h => h

/-- Notifying one list after another. -/
theorem Spread.append {s s' s'' : S} {ks js : List K} (h : N.Spread Told s s' ks)
    (h' : N.Spread Told s' s'' js) : N.Spread Told s s'' (ks ++ js) where
  told := by
    intro k hk
    rcases List.mem_append.mp hk with hk | hk
    · exact h'.mono k (h.told k hk)
    · exact h'.told k hk
  spread := by
    intro d hd hd' j hj
    cases hmid : N.passes s' d with
    | false => exact h'.mono j (h.spread d hd hmid j hj)
    | true => exact h'.spread d hmid hd' j (h.subscribers d ▸ hj)
  reached := by
    intro d hd hd'
    cases hmid : N.passes s' d with
    | false =>
      obtain ⟨k, hk, hpath⟩ := h.reached d hd hmid
      exact ⟨k, List.mem_append_left js hk, hpath⟩
    | true =>
      obtain ⟨k, hk, hpath⟩ := h'.reached d hmid hd'
      exact ⟨k, List.mem_append_right ks hk, hpath.of_subset h.passes h.subscribers⟩
  passes := fun d hd => h.passes d (h'.passes d hd)
  subscribers := fun d => (h'.subscribers d).trans (h.subscribers d)
  mono := fun j hj => h'.mono j (h.mono j hj)

/-- A marked node that passed the notification on to its subscribers. -/
theorem Spread.marked (hN : N.Lawful size Told) {s s' : S} {k : K} (hk : N.passes s k = true)
    (h : N.Spread Told (N.mark s k) s' (N.subscribers s k)) : N.Spread Told s s' [k] where
  told := by
    intro j hj
    rw [List.mem_singleton.mp hj]
    exact h.mono k (hN.told_mark hk)
  spread := by
    intro d hd hd' j hj
    by_cases hdk : d = k
    · subst hdk
      exact h.told j hj
    · have hmark : N.passes (N.mark s k) d = true := (hN.passes_mark hk d).mpr ⟨hd, hdk⟩
      exact h.spread d hmark hd' j (hN.subscribers_mark hk d ▸ hj)
  reached := by
    intro d hd hd'
    by_cases hdk : d = k
    · subst hdk
      exact ⟨d, List.mem_singleton_self d, .here hk⟩
    · have hmark : N.passes (N.mark s k) d = true := (hN.passes_mark hk d).mpr ⟨hd, hdk⟩
      obtain ⟨j, hj, hpath⟩ := h.reached d hmark hd'
      refine ⟨k, List.mem_singleton_self k, .there hk hj ?_⟩
      exact hpath.of_subset (fun i hi => ((hN.passes_mark hk i).mp hi).1) (hN.subscribers_mark hk)
  passes := fun d hd => ((hN.passes_mark hk d).mp (h.passes d hd)).1
  subscribers := fun d => (h.subscribers d).trans (hN.subscribers_mark hk d)
  mono := fun j hj => h.mono j (hN.mark_told hk hj)

theorem Spread.taken (hN : N.Lawful size Told) {s : S} {k : K} (hk : N.passes s k = false) :
    N.Spread Told s (N.take s k) [k] where
  told := by
    intro j hj
    rw [List.mem_singleton.mp hj]
    exact hN.told_take hk
  spread := by
    intro d hd hd'
    rw [hN.passes_take, hd] at hd'
    cases hd'
  reached := by
    intro d hd hd'
    rw [hN.passes_take, hd] at hd'
    cases hd'
  passes := by
    intro d hd
    rw [hN.passes_take] at hd
    exact hd
  subscribers := hN.subscribers_take s k
  mono := fun _ hj => hN.take_told hj

/-- Notifying marks no more than there is to mark. -/
theorem size_notify_le (hN : N.Lawful size Told) (fuel : ℕ) (s : S) (k : K) :
    size (N.notify fuel s k) ≤ size s :=
  notify_invariant (I := fun s' => size s' ≤ size s)
    (fun _ _ hp h => Nat.le_trans (Nat.le_of_lt (hN.size_mark hp)) h)
    (fun s' j _ h => Nat.le_trans (Nat.le_of_eq (hN.size_take s' j)) h) fuel k (Nat.le_refl _)

/-- With enough fuel everything is told, from one node on and from a
list of nodes. -/
theorem notify_spread (hN : N.Lawful size Told) (fuel : ℕ) :
    ∀ (s : S) (k : K), size s < fuel → N.Spread Told s (N.notify fuel s k) [k] := by
  induction fuel with
  | zero => exact fun s _ h => absurd h (Nat.not_lt_zero _)
  | succ fuel ih =>
    have hlist : ∀ (ks : List K) (s : S), size s < fuel →
        N.Spread Told s (ks.foldl (N.notify fuel) s) ks := by
      intro ks
      induction ks with
      | nil => exact fun s _ => .nil s
      | cons k rest ihlist =>
        intro s hs
        have hle := size_notify_le hN fuel s k
        exact (ih s k hs).append (ihlist (N.notify fuel s k) (by omega))
    intro s k hs
    rw [notify]
    cases hp : N.passes s k with
    | false => exact .taken hN hp
    | true =>
      have hlt := hN.size_mark hp
      exact .marked hN hp (hlist _ _ (by omega))

theorem notifyAll_spread (hN : N.Lawful size Told) {fuel : ℕ} {s : S} (hs : size s < fuel)
    (ks : List K) : N.Spread Told s (ks.foldl (N.notify fuel) s) ks := by
  induction ks generalizing s with
  | nil => exact .nil s
  | cons k rest ih =>
    have hle := size_notify_le hN fuel s k
    exact (notify_spread hN fuel s k hs).append (ih (by omega))

end Notifier

end Vertz.Lib
