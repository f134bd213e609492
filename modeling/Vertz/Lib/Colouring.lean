import Mathlib.Data.List.Chain

/-!
# `Vertz.Lib.Colouring`: what depth first search knows of a graph

A search has visited some nodes, of which those on its path are still
open; the others are done. `Coloured` says that done nodes lead to done
nodes only and lie on no cycle, and how entering and leaving a node keep
that. An edge from the end of the path back to it closes a cycle
(`Coloured.cycle`).
-/

namespace Vertz.Lib

open List

variable {α : Type} {E : α → α → Prop}

/-- The edges lead along the nodes and back to the first, and no other
node is twice among them. -/
structure IsCycle (E : α → α → Prop) (cycle : List α) : Prop where
  chain : cycle.IsChain E
  closed : cycle.head? = cycle.getLast?
  nodup : cycle.dropLast.Nodup
  two_le : 2 ≤ cycle.length

theorem transGen_of_chain {a b : α} {mid : List α} (h : (a :: mid ++ [b]).IsChain E) :
    Relation.TransGen E a b := by
  induction mid generalizing a with
  | nil => exact .single h.rel
  | cons c mid ih => exact .head h.rel (ih h.of_cons)

/-- On a cycle a node leads back to itself. -/
theorem IsCycle.transGen {cycle : List α} (h : IsCycle E cycle) : ∃ a, Relation.TransGen E a a := by
  cases cycle with
  | nil => exact absurd h.two_le (by simp)
  | cons a rest =>
    have hne : rest ≠ [] := by
      rintro rfl
      exact absurd h.two_le (by simp)
    have hlast : rest.getLast hne = a := by
      have hclosed := h.closed
      rw [head?_cons, getLast?_eq_some_getLast (cons_ne_nil a rest),
        getLast_cons hne] at hclosed
      exact (Option.some.inj hclosed).symm
    have hchain := h.chain
    rw [← dropLast_append_getLast hne, hlast] at hchain
    exact ⟨a, transGen_of_chain hchain⟩

structure Coloured (E : α → α → Prop) (visited path : List α) : Prop where
  chain : path.IsChain E
  nodup : path.Nodup
  entered : ∀ a ∈ path, a ∈ visited
  closed : ∀ a ∈ visited, a ∉ path → ∀ b, E a b → b ∈ visited ∧ b ∉ path
  acyclic : ∀ a ∈ visited, a ∉ path → ¬ Relation.TransGen E a a

namespace Coloured

variable {visited path : List α} {a b : α}

theorem nil : Coloured E [] [] where
  chain := .nil
  nodup := nodup_nil
  entered := fun _ h => nomatch h
  closed := fun _ h => nomatch h
  acyclic := fun _ h => nomatch h

theorem enter (h : Coloured E visited path) (ha : a ∉ visited)
    (hedge : ∀ p ∈ path.getLast?, E p a) : Coloured E (a :: visited) (path ++ [a]) where
  chain := isChain_append.mpr ⟨h.chain, .singleton a, by simpa using hedge⟩
  nodup := by
    have hfresh : a ∉ path := fun hmem => ha (h.entered a hmem)
    refine nodup_append.mpr ⟨h.nodup, pairwise_singleton _ a, ?_⟩
    rintro b hb c hc rfl
    exact hfresh (mem_singleton.mp hc ▸ hb)
  entered := by
    intro b hb
    rcases mem_append.mp hb with hb | hb
    · exact mem_cons_of_mem _ (h.entered b hb)
    · exact mem_singleton.mp hb ▸ mem_cons_self
  closed := by
    intro b hb hpath c hc
    rw [mem_append, mem_singleton, not_or] at hpath
    obtain ⟨hmem, hnot⟩ := h.closed b ((mem_cons.mp hb).resolve_left hpath.2) hpath.1 c hc
    refine ⟨mem_cons_of_mem _ hmem, ?_⟩
    rw [mem_append, mem_singleton, not_or]
    exact ⟨hnot, fun heq => ha (heq ▸ hmem)⟩
  acyclic := by
    intro b hb hpath
    rw [mem_append, mem_singleton, not_or] at hpath
    exact h.acyclic b ((mem_cons.mp hb).resolve_left hpath.2) hpath.1

/-- What a done node leads to is done. -/
theorem reaches (h : Coloured E visited path) (ha : a ∈ visited) (hpath : a ∉ path)
    (hab : Relation.TransGen E a b) : b ∈ visited ∧ b ∉ path := by
  induction hab with
  | single hedge => exact h.closed a ha hpath _ hedge
  | tail _ hedge ih => exact h.closed _ ih.1 ih.2 _ hedge

/-- A node is left when all its edges lead to nodes that are done. -/
theorem leave (h : Coloured E visited (path ++ [a]))
    (hdone : ∀ b, E a b → b ∈ visited ∧ b ∉ path ++ [a]) : Coloured E visited path where
  chain := (isChain_append.mp h.chain).1
  nodup := (nodup_append.mp h.nodup).1
  entered := fun b hb => h.entered b (mem_append_left _ hb)
  closed := by
    intro b hb hpath c hc
    by_cases hba : b = a
    · obtain ⟨hmem, hnot⟩ := hdone c (hba ▸ hc)
      exact ⟨hmem, fun hcp => hnot (mem_append_left _ hcp)⟩
    · have hopen : b ∉ path ++ [a] := by simp [hpath, hba]
      obtain ⟨hmem, hnot⟩ := h.closed b hb hopen c hc
      exact ⟨hmem, fun hcp => hnot (mem_append_left _ hcp)⟩
  acyclic := by
    intro b hb hpath hcycle
    by_cases hba : b = a
    · -- the first edge of the cycle leads to a done node, which cannot lead back
      subst hba
      obtain ⟨c, hbc, hcb⟩ := Relation.TransGen.head'_iff.mp hcycle
      obtain ⟨hmem, hnot⟩ := hdone c hbc
      rcases Relation.reflTransGen_iff_eq_or_transGen.mp hcb with rfl | hcb
      · exact hnot (mem_append_right _ (mem_singleton_self _))
      · exact (h.reaches hmem hnot hcb).2 (mem_append_right _ (mem_singleton_self _))
    · exact h.acyclic b hb (by simp [hpath, hba]) hcycle

/-- An edge back to the path closes a cycle. -/
theorem cycle [DecidableEq α] (h : Coloured E visited path) (hb : b ∈ path)
    (hedge : ∀ p ∈ path.getLast?, E p b) : IsCycle E (path.dropWhile (· ≠ b) ++ [b]) := by
  obtain ⟨pre, post, rfl, hpre⟩ := eq_append_cons_of_mem hb
  have hdrop : (pre ++ b :: post).dropWhile (· ≠ b) = b :: post := by
    rw [dropWhile_append_of_pos (by simpa using fun c hc => ne_of_mem_of_not_mem hc hpre)]
    exact dropWhile_cons_of_neg (by simp)
  have hlast : ∀ p ∈ (b :: post).getLast?, E p b := by
    rwa [getLast?_append_of_ne_nil _ (cons_ne_nil b post)] at hedge
  rw [hdrop]
  exact {
    chain := isChain_append.mpr
      ⟨(isChain_append.mp h.chain).2.1, .singleton b, by simpa using hlast⟩
    closed := by
      rw [getLast?_append_of_ne_nil _ (cons_ne_nil b []), getLast?_singleton]
      rfl
    nodup := by
      rw [dropLast_concat]
      exact (nodup_append.mp h.nodup).2.1
    two_le := by simp }

end Coloured

end Vertz.Lib
