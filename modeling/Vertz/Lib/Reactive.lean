import Mathlib.Logic.Relation

/-!
# `Vertz.Lib.Reactive`: cached results of functions that read each other

A dependency graph has inputs, which hold a value, and derived nodes,
which have code and may have a cached result. Code asks for the value of
one node after another; which one it asks for next can depend on what it
was told. A node that is subscribed to another is told when that one
changes.

* `Yields`: what code returns when every node it asks for has its
  current value. This is the meaning of a derived node.
* `Traced`: the same, along the way a cached result was computed: every
  node asked for is an input or has a fresh result, and is subscribed
  to.
* `Ran`: a run that has not returned yet, in the same sense.

A traced result is the current one (`Traced.yields`), a run that returns
is traced (`Ran.traced`), and both survive a change of the graph that
keeps the nodes they are subscribed to (`Traced.keep`, `Ran.keep`).

Where code has no silent steps and nodes have one value, code yields at
most one value (`Yields.unique`), and code that yields one does not need
the node it belongs to (`not_needs_self`).
-/

namespace Vertz.Lib

/-- Code that asks for the values of nodes. -/
structure Reader (K V C : Type) where
  returns : C → Option V
  /-- The node asked for, and how the code goes on. -/
  asks : C → Option (K × (V → C))
  /-- A step that asks for nothing. -/
  silent : C → C → Prop

/-- What there is to see of a dependency graph. -/
structure DepGraph (K V C : Type) where
  input : K → V → Prop
  code : K → C → Prop
  /-- The cached result, where it counts as current. -/
  fresh : K → V → Prop
  /-- The second node is told when the first one changes. -/
  subscribed : K → K → Prop

variable {K V C : Type}

section Meaning

variable (R : Reader K V C) (G : DepGraph K V C)

/-- What code returns on the current values. -/
inductive Yields : C → V → Prop where
  | returns {c : C} {v : V} (h : R.returns c = some v) : Yields c v
  | silent {c c' : C} {v : V} (h : R.silent c c') (hrest : Yields c' v) : Yields c v
  | input {c : C} {s : K} {next : V → C} {w v : V} (h : R.asks c = some (s, next))
      (hs : G.input s w) (hrest : Yields (next w) v) : Yields c v
  | derived {c f : C} {s : K} {next : V → C} {w v : V} (h : R.asks c = some (s, next))
      (hs : G.code s f) (hw : Yields f w) (hrest : Yields (next w) v) : Yields c v

/-- What code of node `k` returns, every node it asks for being
subscribed to and fresh. -/
inductive Traced : K → C → V → Prop where
  | returns {k : K} {c : C} {v : V} (h : R.returns c = some v) : Traced k c v
  | silent {k : K} {c c' : C} {v : V} (h : R.silent c c') (hrest : Traced k c' v) : Traced k c v
  | input {k : K} {c : C} {s : K} {next : V → C} {w v : V} (h : R.asks c = some (s, next))
      (hsub : G.subscribed s k) (hs : G.input s w) (hrest : Traced k (next w) v) : Traced k c v
  | fresh {k : K} {c f : C} {s : K} {next : V → C} {w v : V} (h : R.asks c = some (s, next))
      (hsub : G.subscribed s k) (hs : G.code s f) (hcached : G.fresh s w) (hw : Traced s f w)
      (hrest : Traced k (next w) v) : Traced k c v

/-- How far code of node `k` has got, in the same sense. -/
inductive Ran (k : K) (start : C) : C → Prop where
  | start : Ran k start start
  | silent {c c' : C} (hran : Ran k start c) (h : R.silent c c') : Ran k start c'
  | input {c : C} {s : K} {next : V → C} {w : V} (hran : Ran k start c)
      (h : R.asks c = some (s, next)) (hsub : G.subscribed s k) (hs : G.input s w) :
      Ran k start (next w)
  | fresh {c f : C} {s : K} {next : V → C} {w : V} (hran : Ran k start c)
      (h : R.asks c = some (s, next)) (hsub : G.subscribed s k) (hs : G.code s f)
      (hcached : G.fresh s w) (hw : Traced R G s f w) : Ran k start (next w)

end Meaning

variable {R : Reader K V C} {G G' : DepGraph K V C}

theorem Traced.yields {k : K} {c : C} {v : V} (h : Traced R G k c v) : Yields R G c v := by
  induction h with
  | returns h => exact .returns h
  | silent h _ ih => exact .silent h ih
  | input h _ hs _ ih => exact .input h hs ih
  | fresh h _ hs _ _ _ ihw ih => exact .derived h hs ihw ih

theorem Ran.trans {k : K} {start c : C} (h : Ran R G k start c) {v : V}
    (hrest : Traced R G k c v) : Traced R G k start v := by
  induction h with
  | start => exact hrest
  | silent _ h ih => exact ih (.silent h hrest)
  | input _ h hsub hs ih => exact ih (.input h hsub hs hrest)
  | fresh _ h hsub hs hcached hw ih => exact ih (.fresh h hsub hs hcached hw hrest)

theorem Ran.traced {k : K} {start c : C} (h : Ran R G k start c) {v : V}
    (hreturns : R.returns c = some v) : Traced R G k start v :=
  h.trans (.returns hreturns)

/-- The graph changes, and what the kept nodes are subscribed to does
not; fresh nodes they are subscribed to are kept themselves. -/
structure KeepsGraph (G G' : DepGraph K V C) (kept : K → Prop) : Prop where
  input : ∀ {s k w}, kept k → G.subscribed s k → G.input s w →
    G'.input s w ∧ G'.subscribed s k
  fresh : ∀ {s k f w}, kept k → G.subscribed s k → G.code s f → G.fresh s w →
    kept s ∧ G'.code s f ∧ G'.fresh s w ∧ G'.subscribed s k

theorem Traced.keep {kept : K → Prop} (hkeep : KeepsGraph G G' kept) {k : K} {c : C} {v : V}
    (h : Traced R G k c v) (hk : kept k) : Traced R G' k c v := by
  induction h with
  | returns h => exact .returns h
  | silent h _ ih => exact .silent h (ih hk)
  | input h hsub hs _ ih =>
    have hkept := hkeep.input hk hsub hs
    exact .input h hkept.2 hkept.1 (ih hk)
  | fresh h hsub hs hcached _ _ ihw ih =>
    have hkept := hkeep.fresh hk hsub hs hcached
    exact .fresh h hkept.2.2.2 hkept.2.1 hkept.2.2.1 (ihw hkept.1) (ih hk)

theorem Ran.keep {kept : K → Prop} (hkeep : KeepsGraph G G' kept) {k : K} {start c : C}
    (h : Ran R G k start c) (hk : kept k) : Ran R G' k start c := by
  induction h with
  | start => exact .start
  | silent _ h ih => exact .silent ih h
  | input _ h hsub hs ih =>
    have hkept := hkeep.input hk hsub hs
    exact .input ih h hkept.2 hkept.1
  | fresh _ h hsub hs hcached hw ih =>
    have hkept := hkeep.fresh hk hsub hs hcached
    exact .fresh ih h hkept.2.2.2 hkept.2.1 hkept.2.2.1 (hw.keep hkeep hkept.1)

/-! ### What code needs -/

/-- How far code gets on the current values. -/
inductive Reaches (R : Reader K V C) (G : DepGraph K V C) : C → C → Prop where
  | here (c : C) : Reaches R G c c
  | input {c c' : C} {s : K} {next : V → C} {w : V} (h : R.asks c = some (s, next))
      (hs : G.input s w) (hrest : Reaches R G (next w) c') : Reaches R G c c'
  | derived {c c' f : C} {s : K} {next : V → C} {w : V} (h : R.asks c = some (s, next))
      (hs : G.code s f) (hw : Yields R G f w) (hrest : Reaches R G (next w) c') : Reaches R G c c'

/-- The code of the first node asks for the second one. -/
def Needs (R : Reader K V C) (G : DepGraph K V C) (k s : K) : Prop :=
  ∃ f c next, G.code k f ∧ Reaches R G f c ∧ R.asks c = some (s, next)

/-- Code either returns or asks, and takes no silent step. -/
structure Reader.Plain (R : Reader K V C) : Prop where
  silent : ∀ c c', ¬ R.silent c c'
  returns : ∀ {c v}, R.returns c = some v → R.asks c = none

/-- A node is an input with one value or a derived node with one code. -/
structure DepGraph.Functional (G : DepGraph K V C) : Prop where
  input : ∀ {s v w}, G.input s v → G.input s w → v = w
  code : ∀ {s f f'}, G.code s f → G.code s f' → f = f'
  apart : ∀ {s v f}, G.input s v → ¬ G.code s f

section Plain

variable (hR : R.Plain) (hG : G.Functional)
include hR hG

theorem Yields.unique {c : C} {v w : V} (h : Yields R G c v) (h' : Yields R G c w) : v = w := by
  induction h generalizing w with
  | returns h =>
    cases h' with
    | returns h' => exact Option.some.inj (h.symm.trans h')
    | silent h' _ => exact absurd h' (hR.silent _ _)
    | input h' _ _ => rw [hR.returns h] at h'; cases h'
    | derived h' _ _ _ => rw [hR.returns h] at h'; cases h'
  | silent h _ _ => exact absurd h (hR.silent _ _)
  | input h hs _ ih =>
    cases h' with
    | returns h' => rw [hR.returns h'] at h; cases h
    | silent h' _ => exact absurd h' (hR.silent _ _)
    | input h' hs' hrest' =>
      cases h.symm.trans h'
      rw [← hG.input hs hs'] at hrest'
      exact ih hrest'
    | derived h' hs' _ _ =>
      cases h.symm.trans h'
      exact absurd hs' (hG.apart hs)
  | derived h hs _ _ ihw ih =>
    cases h' with
    | returns h' => rw [hR.returns h'] at h; cases h
    | silent h' _ => exact absurd h' (hR.silent _ _)
    | input h' hs' _ =>
      cases h.symm.trans h'
      exact absurd hs (hG.apart hs')
    | derived h' hs' hw' hrest' =>
      cases h.symm.trans h'
      rw [← hG.code hs hs'] at hw'
      rw [← ihw hw'] at hrest'
      exact ih hrest'

/-- What code asks for on its way to a value has no endless needs. -/
theorem Yields.acc {c : C} {v : V} (h : Yields R G c v) :
    ∀ {c' s next}, Reaches R G c c' → R.asks c' = some (s, next) →
      Acc (fun s k => Needs R G k s) s := by
  induction h with
  | returns h =>
    intro c' s next hreach hasks
    cases hreach with
    | here => rw [hR.returns h] at hasks; cases hasks
    | input h' _ _ => rw [hR.returns h] at h'; cases h'
    | derived h' _ _ _ => rw [hR.returns h] at h'; cases h'
  | silent h _ _ => exact absurd h (hR.silent _ _)
  | input h hs _ ih =>
    intro c' s next hreach hasks
    cases hreach with
    | here =>
      cases h.symm.trans hasks
      refine ⟨_, ?_⟩
      intro t ⟨f, _, _, hcode, _, _⟩
      exact absurd hcode (hG.apart hs)
    | input h' hs' hrest' =>
      cases h.symm.trans h'
      rw [← hG.input hs hs'] at hrest'
      exact ih hrest' hasks
    | derived h' hs' _ _ =>
      cases h.symm.trans h'
      exact absurd hs' (hG.apart hs)
  | derived h hs hw _ ihw ih =>
    intro c' s next hreach hasks
    cases hreach with
    | here =>
      cases h.symm.trans hasks
      refine ⟨_, ?_⟩
      intro t ⟨f, c'', next', hcode, hreach', hasks'⟩
      rw [← hG.code hs hcode] at hreach'
      exact ihw hreach' hasks'
    | input h' hs' _ =>
      cases h.symm.trans h'
      exact absurd hs (hG.apart hs')
    | derived h' hs' hw' hrest' =>
      cases h.symm.trans h'
      rw [← hG.code hs hs'] at hw'
      rw [← hw.unique hR hG hw'] at hrest'
      exact ih hrest' hasks

/-- Code that yields a value does not need the node it belongs to. -/
theorem not_needs_self {k : K} {f : C} {v : V} (hcode : G.code k f) (h : Yields R G f v) :
    ¬ Relation.TransGen (fun s k => Needs R G k s) k k := by
  have hacc : Acc (fun s k => Needs R G k s) k := by
    refine ⟨_, ?_⟩
    intro s ⟨f', c, next, hcode', hreach, hasks⟩
    rw [← hG.code hcode hcode'] at hreach
    exact h.acc hR hG hreach hasks
  intro hcycle
  have hself : ∀ {j}, Acc (Relation.TransGen fun s k => Needs R G k s) j →
      ¬ Relation.TransGen (fun s k => Needs R G k s) j j := by
    intro j hj
    induction hj with
    | intro j _ ih => exact fun hjj => ih j hjj hjj
  exact hself hacc.transGen hcycle

end Plain

theorem Reaches.trans {c c' c'' : C} (h : Reaches R G c c') (h' : Reaches R G c' c'') :
    Reaches R G c c'' := by
  induction h with
  | here => exact h'
  | input h hs _ ih => exact .input h hs (ih h')
  | derived h hs hw _ ih => exact .derived h hs hw (ih h')

section Mono

variable (hinput : ∀ {s w}, G.input s w → G'.input s w) (hcode : ∀ {s f}, G.code s f → G'.code s f)
include hinput hcode

theorem Yields.mono {c : C} {v : V} (h : Yields R G c v) : Yields R G' c v := by
  induction h with
  | returns h => exact .returns h
  | silent h _ ih => exact .silent h ih
  | input h hs _ ih => exact .input h (hinput hs) ih
  | derived h hs _ _ ihw ih => exact .derived h (hcode hs) ihw ih

theorem Reaches.mono {c c' : C} (h : Reaches R G c c') : Reaches R G' c c' := by
  induction h with
  | here => exact .here _
  | input h hs _ ih => exact .input h (hinput hs) ih
  | derived h hs hw _ ih => exact .derived h (hcode hs) (hw.mono hinput hcode) ih

end Mono

theorem Reaches.yields {c c' : C} {v : V} (h : Reaches R G c c') (h' : Yields R G c' v) :
    Yields R G c v := by
  induction h with
  | here => exact h'
  | input h hs _ ih => exact .input h hs (ih h')
  | derived h hs hw _ ih => exact .derived h hs hw (ih h')

end Vertz.Lib
