import Vertz.Lib.Run
import Vertz.Server.Auth.ClosureStore

/-!
# `Vertz.Proofs.ClosureRuns`: what a closure table stands for

A `Hierarchy` is the resources that were added and the parents they were
given. `IsClosure` says that the rows of a table are the reflexive
transitive closure of the parents, with the distance as the depth.

A run adds and removes resources. A step is `Careful` when it adds a
resource that is new under a parent that is there, or is refused; and
when the keys of a removed subtree belong to the subtree alone.
-/

namespace Vertz.Spec

open Vertz.Server.Auth.InMemoryClosureStore
open Vertz.Lib Vertz.Server.Auth

structure Hierarchy where
  known : ResourceRef → Prop
  /-- The second resource is a parent of the first. -/
  parent : ResourceRef → ResourceRef → Prop

namespace Hierarchy

def empty : Hierarchy where
  known _ := False
  parent _ _ := False

/-- The hierarchy after a resource was added under a parent. -/
def add (hierarchy : Hierarchy) (resource : ResourceRef) (parent : Option ResourceRef) :
    Hierarchy where
  known x := hierarchy.known x ∨ x = resource
  parent x p := hierarchy.parent x p ∨ (x = resource ∧ parent = some p)

/-- The first resource is the second or lies below it. -/
def Below (hierarchy : Hierarchy) : ResourceRef → ResourceRef → Prop :=
  Relation.ReflTransGen hierarchy.parent

/-- The hierarchy after a resource was removed with what lies below it. -/
def remove (hierarchy : Hierarchy) (resource : ResourceRef) : Hierarchy where
  known x := hierarchy.known x ∧ ¬ hierarchy.Below x resource
  parent x p := hierarchy.parent x p ∧ ¬ hierarchy.Below x resource

end Hierarchy

/-- The rows are the reflexive transitive closure of the hierarchy. -/
structure IsClosure (hierarchy : Hierarchy) (rows : List ClosureRow) : Prop where
  exact : ∀ ancestor descendant depth, ⟨ancestor, descendant, depth⟩ ∈ rows ↔
    hierarchy.known descendant ∧ Distance hierarchy.parent depth descendant ancestor
  once : (rows.map fun row => (row.ancestor, row.descendant)).Nodup
  depth : ∀ row ∈ rows, row.depth < MAX_DEPTH

structure ClosureRun where
  store : InMemoryClosureStore
  hierarchy : Hierarchy

inductive ClosureStep where
  | addResource (resource : ResourceRef) (parent : Option ResourceRef)
  | removeResource (resource : ResourceRef)
  deriving DecidableEq, Repr

namespace ClosureRun

def start : ClosureRun where
  store := {}
  hierarchy := .empty

def step (run : ClosureRun) : ClosureStep → ClosureRun
  | .addResource resource parent =>
    match run.store.addResource resource parent with
    | (store, .ok ()) => ⟨store, run.hierarchy.add resource parent⟩
    | (store, .error _) => { run with store := store }
  | .removeResource resource =>
    ⟨run.store.removeResource resource, run.hierarchy.remove resource⟩

/-- A call that throws leaves the rows as they were. -/
def UnchangedByThrow (run : ClosureRun) : ClosureStep → Prop
  | .addResource resource parent => ∀ error,
      (run.store.addResource resource parent).2 = .error error →
      (run.step (.addResource resource parent)).store = run.store
  | .removeResource _ => True

/-- The table stands for the hierarchy after the step. -/
def Exact (run : ClosureRun) (action : ClosureStep) : Prop :=
  IsClosure (run.step action).hierarchy (run.step action).store.rows ∧
    run.UnchangedByThrow action

/-- The resource can be added under the parent, or lies too deep there. -/
def CarefulAdd (store : InMemoryClosureStore) (resource : ResourceRef)
    (parent : Option ResourceRef) : Prop :=
  (∃ p ∈ parent, ∃ ancestor ∈ store.getAncestors p, MAX_DEPTH ≤ ancestor.depth + 1) ∨
    (store.hasPath resource resource = false ∧ ∀ p ∈ parent, store.hasPath p p = true)

/-- No other resource has the key of one that is removed. -/
def CarefulRemove (store : InMemoryClosureStore) (resource : ResourceRef) : Prop :=
  ∀ removed ∈ store.getDescendants resource, ∀ row ∈ store.rows,
    key row.descendant = key removed.resource →
    store.hasPath resource row.descendant = true

def Careful (run : ClosureRun) : ClosureStep → Prop
  | .addResource resource parent => CarefulAdd run.store resource parent
  | .removeResource resource => CarefulRemove run.store resource

instance (store : InMemoryClosureStore) (resource : ResourceRef) (parent : Option ResourceRef) :
    Decidable (CarefulAdd store resource parent) :=
  inferInstanceAs (Decidable (_ ∨ _))

instance (store : InMemoryClosureStore) (resource : ResourceRef) :
    Decidable (CarefulRemove store resource) :=
  inferInstanceAs (Decidable (∀ removed ∈ _, ∀ row ∈ _, _ → _))

instance (run : ClosureRun) : (action : ClosureStep) → Decidable (run.Careful action)
  | .addResource resource parent =>
    inferInstanceAs (Decidable (CarefulAdd run.store resource parent))
  | .removeResource resource => inferInstanceAs (Decidable (CarefulRemove run.store resource))

end ClosureRun

end Vertz.Spec

/-!
## The rows of a closure table

`Table` is the invariant of a careful run: the rows are the paths of the
hierarchy, each with its length, and no two of them join the same
resources. So no two paths do, and a length is a distance
(`Table.isClosure`).

`Table.add` and `Table.remove` are the two step lemmas. Both rest on
`Steps.congr`: the resources known before an addition, and those that are
not below a removed one, have the ancestors they had.
`careful_run_exact` is the result for whole runs.

`addResource_again_doubles_rows` is a run that adds a resource twice.
-/

namespace Vertz.Server.Auth.InMemoryClosureStore

open List

/-- The ancestors that a new resource takes over. -/
def inherited (store : InMemoryClosureStore) (parent : Option ResourceRef) : List ClosureEntry :=
  parent.elim [] store.getAncestors

variable {store : InMemoryClosureStore} {parent : Option ResourceRef}

theorem mem_inherited {entry : ClosureEntry} : entry ∈ store.inherited parent ↔
      ∃ p, parent = some p ∧ ⟨entry.resource, p, entry.depth⟩ ∈ store.rows := by
  cases parent with
  | none => simp [inherited]
  | some p => simp [inherited]

/-- The rows after a resource was added under a parent that is not itself. -/
def added (store : InMemoryClosureStore) (resource : ResourceRef) (parent : Option ResourceRef) :
    List ClosureRow :=
  store.rows ++ ⟨resource, resource, 0⟩ :: (store.inherited parent).map
    fun ancestor => ⟨ancestor.resource, resource, ancestor.depth + 1⟩

/-- Before it is given its parents a resource is nobody's ancestor. -/
theorem getAncestors_push {resource p : ResourceRef} (hne : p ≠ resource) :
    (⟨store.rows ++ [⟨resource, resource, 0⟩]⟩ : InMemoryClosureStore).getAncestors p
      = store.getAncestors p := by
  simp [getAncestors, filter_append, Ne.symm hne]

/-- A call that throws leaves the store; it does when the parent has an
ancestor at the greatest depth. -/
theorem addResource_error {resource : ResourceRef} {error : StoreError}
    (h : (store.addResource resource parent).2 = .error error) :
    (store.addResource resource parent).1 = store := by
  cases parent with
  | none => cases h
  | some p =>
    simp only [addResource] at h ⊢
    split at h
    · next hdeep => rw [if_pos hdeep, dropLast_concat]
    · cases h

theorem addResource_deep {resource p : ResourceRef} {ancestor : ClosureEntry}
    (hmem : ancestor ∈ store.getAncestors p) (hdepth : MAX_DEPTH ≤ ancestor.depth + 1) :
    ∃ error, store.addResource resource (some p) = (store, .error error) := by
  have hpushed : ancestor ∈ (⟨store.rows ++ [⟨resource, resource, 0⟩]⟩ :
      InMemoryClosureStore).getAncestors p :=
    mem_getAncestors.mpr (mem_append_left _ (mem_getAncestors.mp hmem))
  have hle := (Lib.le_foldl_max _ 0).2 _ (mem_map_of_mem (f := (·.depth)) hpushed)
  refine ⟨⟨"Hierarchy depth exceeds maximum of 4 levels"⟩, ?_⟩
  simp only [addResource]
  rw [if_pos (by omega), dropLast_concat]

/-- A call that does not throw adds the rows of the new resource, none of
them at the maximal depth. -/
theorem addResource_ok {resource : ResourceRef} (hne : ∀ p ∈ parent, p ≠ resource)
    (h : (store.addResource resource parent).2 = .ok ()) :
    (store.addResource resource parent).1.rows = store.added resource parent ∧
      ∀ ancestor ∈ store.inherited parent, ancestor.depth + 1 < MAX_DEPTH := by
  cases parent with
  | none => exact ⟨rfl, nofun⟩
  | some p =>
    simp only [addResource, getAncestors_push (hne p rfl)] at h ⊢
    split at h
    · cases h
    · next hdeep =>
        rw [if_neg hdeep]
        refine ⟨by simp [added, inherited], ?_⟩
        intro ancestor hmem
        have hancestor : ancestor ∈ store.getAncestors p := hmem
        have hle := (Lib.le_foldl_max _ 0).2 _ (mem_map_of_mem (f := (·.depth)) hancestor)
        omega

theorem mem_added {resource ancestor descendant : ResourceRef} {depth : ℕ} :
    ⟨ancestor, descendant, depth⟩ ∈ store.added resource parent ↔
      ⟨ancestor, descendant, depth⟩ ∈ store.rows ∨
      (descendant = resource ∧ ancestor = resource ∧ depth = 0) ∨
      (descendant = resource ∧ ∃ p n, parent = some p ∧ depth = n + 1 ∧
        ⟨ancestor, p, n⟩ ∈ store.rows) := by
  simp only [added, mem_append, mem_cons, mem_map, mem_inherited,
    ClosureRow.mk.injEq]
  constructor
  · rintro (hold | ⟨rfl, rfl, rfl⟩ | ⟨entry, ⟨p, hp, hrow⟩, rfl, rfl, rfl⟩)
    · exact .inl hold
    · exact .inr (.inl ⟨rfl, rfl, rfl⟩)
    · exact .inr (.inr ⟨rfl, p, entry.depth, hp, rfl, hrow⟩)
  · rintro (hold | ⟨rfl, rfl, rfl⟩ | ⟨rfl, p, n, hp, rfl, hrow⟩)
    · exact .inl hold
    · exact .inr (.inl ⟨rfl, rfl, rfl⟩)
    · exact .inr (.inr ⟨⟨ancestor, n⟩, ⟨p, hp, hrow⟩, rfl, rfl, rfl⟩)

theorem mem_removeResource {resource : ResourceRef} {row : ClosureRow} :
    row ∈ (store.removeResource resource).rows ↔ row ∈ store.rows ∧
      (∀ removed ∈ store.getDescendants resource, key removed.resource ≠ key row.ancestor) ∧
      ∀ removed ∈ store.getDescendants resource, key removed.resource ≠ key row.descendant := by
  simp [removeResource]

end Vertz.Server.Auth.InMemoryClosureStore

namespace Vertz.Spec

open Vertz.Server.Auth.InMemoryClosureStore
open Vertz.Lib Vertz.Server.Auth List

/-- The rows are the paths of the hierarchy with their lengths. -/
structure Table (hierarchy : Hierarchy) (rows : List ClosureRow) : Prop where
  wellFormed : ∀ x p, hierarchy.parent x p → hierarchy.known x ∧ hierarchy.known p
  paths : ∀ ancestor descendant depth, ⟨ancestor, descendant, depth⟩ ∈ rows ↔
    hierarchy.known descendant ∧ Steps hierarchy.parent depth descendant ancestor
  once : (rows.map fun row => (row.ancestor, row.descendant)).Nodup
  depth : ∀ row ∈ rows, row.depth < MAX_DEPTH

namespace Table

variable {hierarchy : Hierarchy} {rows : List ClosureRow} {store : InMemoryClosureStore}

theorem empty : Table .empty [] where
  wellFormed := nofun
  paths _ _ _ := ⟨nofun, nofun⟩
  once := .nil
  depth := nofun

/-- Two paths between the same resources are equally long. -/
theorem steps_unique (h : Table hierarchy rows) {n m : ℕ} {x a : ResourceRef}
    (hx : hierarchy.known x) (hn : Steps hierarchy.parent n x a)
    (hm : Steps hierarchy.parent m x a) : n = m := by
  have hrow := (h.paths a x n).mpr ⟨hx, hn⟩
  have hrow' := (h.paths a x m).mpr ⟨hx, hm⟩
  have heq := inj_on_of_nodup_map h.once hrow hrow' rfl
  exact congrArg ClosureRow.depth heq

theorem isClosure (h : Table hierarchy rows) : IsClosure hierarchy rows where
  exact ancestor descendant depth := by
    rw [h.paths]
    refine and_congr_right fun hx => ?_
    refine ⟨fun hsteps => ⟨hsteps, fun m hm => ?_⟩, fun hdist => hdist.1⟩
    exact Nat.le_of_eq (h.steps_unique hx hsteps hm)
  once := h.once
  depth := h.depth

/-- The resources in the table are the known ones. -/
theorem hasPath_self (h : Table hierarchy store.rows) (x : ResourceRef) :
    store.hasPath x x = true ↔ hierarchy.known x := by
  rw [hasPath_iff]
  constructor
  · intro ⟨depth, hrow⟩
    exact ((h.paths x x depth).mp hrow).1
  · intro hx
    exact ⟨0, (h.paths x x 0).mpr ⟨hx, .here x⟩⟩

theorem hasPath_below (h : Table hierarchy store.rows) {a x : ResourceRef} :
    store.hasPath a x = true ↔ hierarchy.known x ∧ hierarchy.Below x a := by
  rw [hasPath_iff, Hierarchy.Below, reflTransGen_iff]
  simp only [h.paths]
  constructor
  · rintro ⟨depth, hx, hsteps⟩
    exact ⟨hx, depth, hsteps⟩
  · rintro ⟨hx, depth, hsteps⟩
    exact ⟨depth, hx, hsteps⟩

theorem known_ancestor (h : Table hierarchy rows) {a x : ResourceRef} {depth : ℕ}
    (hrow : ⟨a, x, depth⟩ ∈ rows) : hierarchy.known a := by
  obtain ⟨hx, hsteps⟩ := (h.paths a x depth).mp hrow
  exact hsteps.mem (fun _ _ _ hp => (h.wellFormed _ _ hp).2) hx

theorem ancestors_nodup (h : Table hierarchy store.rows) (x : ResourceRef) :
    ((store.getAncestors x).map (·.resource)).Nodup := by
  rw [getAncestors, map_map]
  refine List.Nodup.map_on ?_ (h.once.of_map.filter _)
  intro row hrow row' hrow' heq
  obtain ⟨hmem, hx⟩ := mem_filter.mp hrow
  obtain ⟨hmem', hx'⟩ := mem_filter.mp hrow'
  rw [decide_eq_true_eq] at hx hx'
  exact inj_on_of_nodup_map h.once hmem hmem' (Prod.ext heq (hx.trans hx'.symm))

/-! ### Adding a resource -/

section Add

variable {resource : ResourceRef} {parent : Option ResourceRef}

/-- A known resource has the ancestors it had before a new one was added. -/
theorem steps_add_old (h : Table hierarchy rows) (hnew : ¬ hierarchy.known resource) {n : ℕ}
    {x a : ResourceRef} (hx : hierarchy.known x) :
    Steps hierarchy.parent n x a ↔ Steps (hierarchy.add resource parent).parent n x a := by
  refine Steps.congr (S := hierarchy.known) ?_ ?_ hx
  · intro y p _ hp
    exact (h.wellFormed y p hp).2
  · intro y p hy
    refine ⟨.inl, ?_⟩
    rintro (hp | ⟨rfl, -⟩)
    · exact hp
    · exact absurd hy hnew

/-- A new resource has itself and the ancestors of its parent. -/
theorem steps_add_new (h : Table hierarchy rows) (hnew : ¬ hierarchy.known resource)
    (hparent : ∀ p ∈ parent, hierarchy.known p) {n : ℕ} {a : ResourceRef} :
    Steps (hierarchy.add resource parent).parent n resource a ↔
      (a = resource ∧ n = 0) ∨
      ∃ p m, parent = some p ∧ n = m + 1 ∧ Steps hierarchy.parent m p a := by
  constructor
  · intro hsteps
    cases hsteps with
    | here => exact .inl ⟨rfl, rfl⟩
    | step hstep hrest =>
      rcases hstep with hold | ⟨-, hp⟩
      · exact absurd (h.wellFormed _ _ hold).1 hnew
      · exact .inr ⟨_, _, hp, rfl, (h.steps_add_old hnew (hparent _ hp)).mpr hrest⟩
  · rintro (⟨rfl, rfl⟩ | ⟨p, m, hp, rfl, hsteps⟩)
    · exact .here _
    · exact .step (.inr ⟨rfl, hp⟩) ((h.steps_add_old hnew (hparent p hp)).mp hsteps)

theorem add (h : Table hierarchy store.rows) (hnew : ¬ hierarchy.known resource)
    (hparent : ∀ p ∈ parent, hierarchy.known p)
    (hdepth : ∀ ancestor ∈ store.inherited parent, ancestor.depth + 1 < MAX_DEPTH) :
    Table (hierarchy.add resource parent) (store.added resource parent) where
  wellFormed x p := by
    rintro (hp | ⟨rfl, hp⟩)
    · exact ⟨.inl (h.wellFormed x p hp).1, .inl (h.wellFormed x p hp).2⟩
    · exact ⟨.inr rfl, .inl (hparent p hp)⟩
  paths ancestor descendant depth := by
    rw [mem_added]
    by_cases hdescendant : descendant = resource
    · subst hdescendant
      have hno : ⟨ancestor, descendant, depth⟩ ∉ store.rows :=
        fun hrow => hnew ((h.paths _ _ _).mp hrow).1
      have hknown : (hierarchy.add descendant parent).known descendant := .inr rfl
      simp only [hno, hknown, true_and, false_or, h.steps_add_new hnew hparent]
      refine or_congr_right ⟨?_, ?_⟩
      · rintro ⟨p, n, hp, rfl, hrow⟩
        exact ⟨p, n, hp, rfl, ((h.paths _ _ _).mp hrow).2⟩
      · rintro ⟨p, n, hp, rfl, hsteps⟩
        exact ⟨p, n, hp, rfl, (h.paths _ _ _).mpr ⟨hparent p hp, hsteps⟩⟩
    · have hknown : (hierarchy.add resource parent).known descendant ↔ hierarchy.known descendant :=
        or_iff_left hdescendant
      simp only [hdescendant, false_and, or_false, hknown, h.paths]
      exact and_congr_right fun hx => h.steps_add_old hnew hx
  once := by
    -- The new rows have a new descendant, and distinct ancestors.
    simp only [added, map_append, map_cons, map_map]
    refine nodup_append.mpr ⟨h.once, nodup_cons.mpr ⟨?_, ?_⟩, ?_⟩
    · intro hmem
      obtain ⟨entry, hentry, heq⟩ := mem_map.mp hmem
      obtain ⟨p, -, hrow⟩ := mem_inherited.mp hentry
      have hself : entry.resource = resource := congrArg Prod.fst heq
      exact hnew (hself ▸ h.known_ancestor hrow)
    · cases parent with
      | none => exact .nil
      | some p =>
        have hpairs := (h.ancestors_nodup p).map
          (f := fun a => (a, resource)) fun _ _ heq => congrArg Prod.fst heq
        rw [map_map] at hpairs
        exact hpairs
    · rintro pair hold pair' hnewpair rfl
      obtain ⟨row, hrow, rfl⟩ := mem_map.mp hold
      have hdescendant : row.descendant = resource := by
        rcases mem_cons.mp hnewpair with hself | hmem
        · exact congrArg Prod.snd hself
        · obtain ⟨entry, -, heq⟩ := mem_map.mp hmem
          exact (congrArg Prod.snd heq).symm
      exact hnew (hdescendant ▸ ((h.paths _ _ _).mp hrow).1)
  depth row hrow := by
    rcases mem_added.mp hrow with hold | ⟨-, -, hzero⟩ | ⟨-, p, n, hp, hn, hold⟩
    · exact h.depth _ hold
    · rw [hzero]
      decide
    · rw [hn]
      exact hdepth ⟨row.ancestor, n⟩ (InMemoryClosureStore.mem_inherited.mpr ⟨p, hp, hold⟩)

end Add

/-! ### Removing a resource -/

section Remove

variable {resource : ResourceRef}

/-- Under a careful removal the rows that stay are those of the resources
that are not below the removed one. -/
theorem mem_removeResource (h : Table hierarchy store.rows)
    (hcareful : ClosureRun.CarefulRemove store resource) {a x : ResourceRef} {depth : ℕ} :
    ⟨a, x, depth⟩ ∈ (store.removeResource resource).rows ↔
      ⟨a, x, depth⟩ ∈ store.rows ∧ ¬ hierarchy.Below x resource := by
  rw [InMemoryClosureStore.mem_removeResource]
  refine and_congr_right fun hrow => ?_
  have hx := ((h.paths a x depth).mp hrow).1
  constructor
  · rintro ⟨-, hkept⟩ hbelow
    obtain ⟨d, hd⟩ := hasPath_iff.mp (h.hasPath_below.mpr ⟨hx, hbelow⟩)
    exact hkept ⟨x, d⟩ (mem_getDescendants.mpr hd) rfl
  · intro hkept
    -- A key of the subtree at either end of the row puts its descendant below.
    refine ⟨fun removed hremoved hkey => hkept ?_, fun removed hremoved hkey => hkept ?_⟩
    · have hself := (h.paths a a 0).mpr ⟨h.known_ancestor hrow, .here a⟩
      have hpath := hcareful removed hremoved _ hself hkey.symm
      have hxa : hierarchy.Below x a := ((h.paths a x depth).mp hrow).2.reflTransGen
      exact hxa.trans (h.hasPath_below.mp hpath).2
    · exact (h.hasPath_below.mp (hcareful removed hremoved _ hrow hkey.symm)).2

/-- A resource that stays keeps its ancestors. -/
theorem steps_remove {n : ℕ} {x a : ResourceRef} (hx : ¬ hierarchy.Below x resource) :
    Steps hierarchy.parent n x a ↔ Steps (hierarchy.remove resource).parent n x a := by
  refine Steps.congr (S := fun y => ¬ hierarchy.Below y resource) ?_ ?_ hx
  · intro y p hy hp hbelow
    exact hy (.head hp hbelow)
  · intro y p hy
    exact (and_iff_left hy).symm

theorem remove (h : Table hierarchy store.rows)
    (hcareful : ClosureRun.CarefulRemove store resource) :
    Table (hierarchy.remove resource) (store.removeResource resource).rows where
  wellFormed x p := by
    rintro ⟨hp, hbelow⟩
    obtain ⟨hx, hknown⟩ := h.wellFormed x p hp
    refine ⟨⟨hx, hbelow⟩, hknown, fun hpbelow => hbelow ?_⟩
    exact .head hp hpbelow
  paths ancestor descendant depth := by
    rw [h.mem_removeResource hcareful, h.paths]
    show _ ↔ (hierarchy.known descendant ∧ ¬ hierarchy.Below descendant resource) ∧ _
    rw [and_assoc, and_assoc]
    refine and_congr_right fun _ => ?_
    rw [and_comm]
    exact and_congr_right fun hbelow => steps_remove hbelow
  once := h.once.sublist (filter_sublist.map _)
  depth row hrow := h.depth row (InMemoryClosureStore.mem_removeResource.mp hrow).1

end Remove

end Table

namespace ClosureRun

/-- A careful step keeps the rows the paths of the hierarchy. -/
theorem step_table (run : ClosureRun) (action : ClosureStep)
    (h : Table run.hierarchy run.store.rows) (hcareful : run.Careful action) :
    Table (run.step action).hierarchy (run.step action).store.rows := by
  cases action with
  | removeResource resource => exact h.remove hcareful
  | addResource resource parent =>
    rcases hcareful with ⟨p, rfl, ancestor, hmem, hdepth⟩ | ⟨hnew, hparent⟩
    · obtain ⟨error, heq⟩ :=
        @addResource_deep run.store resource _ _ hmem hdepth
      simpa only [step, heq] using h
    · have hunknown : ¬ run.hierarchy.known resource := by
        rw [← h.hasPath_self, hnew]
        exact Bool.false_ne_true
      have hknown : ∀ p ∈ parent, run.hierarchy.known p :=
        fun p hp => (h.hasPath_self p).mp (hparent p hp)
      have hne : ∀ p ∈ parent, p ≠ resource := by
        rintro p hp rfl
        exact hunknown (hknown p hp)
      cases hadd : run.store.addResource resource parent with
      | mk store result =>
        cases result with
        | error error =>
          have hkept := @addResource_error _ _ _ error
            (congrArg Prod.snd hadd)
          rw [hadd] at hkept
          have hstore : store = run.store := hkept
          simpa only [step, hadd, hstore] using h
        | ok _ =>
          obtain ⟨hrows, hdepth⟩ := addResource_ok hne
            (congrArg Prod.snd hadd)
          rw [hadd] at hrows
          have htable := h.add hunknown hknown hdepth
          rw [← hrows] at htable
          simpa only [step, hadd] using htable

/-- Every call that throws leaves the rows, careful or not. -/
theorem unchangedByThrow (run : ClosureRun) (action : ClosureStep) :
    run.UnchangedByThrow action := by
  cases action with
  | removeResource resource => trivial
  | addResource resource parent =>
    intro error herror
    have hkept := addResource_error herror
    have hadd : run.store.addResource resource parent = (run.store, .error error) :=
      Prod.ext hkept herror
    simp only [step, hadd]

theorem exact_of_table (run : ClosureRun) (action : ClosureStep)
    (h : Table run.hierarchy run.store.rows) (hcareful : run.Careful action) :
    run.Exact action :=
  ⟨(step_table run action h hcareful).isClosure, unchangedByThrow run action⟩

/-- In a run of careful steps the table stands for the hierarchy after
every call. -/
theorem careful_run_exact (actions : List ClosureStep)
    (hcareful : Along step Careful start actions) : Along step Exact start actions :=
  Along.imp (I := fun run => Table run.hierarchy run.store.rows) step_table exact_of_table
    Table.empty hcareful

/-- A team of an organisation is added, refused, removed and added again. -/
theorem careful_run_exact_team :
    Along step Exact start
      [.addResource ⟨"org", "1"⟩ none, .addResource ⟨"team", "1"⟩ (some ⟨"org", "1"⟩),
        .addResource ⟨"project", "1"⟩ (some ⟨"team", "1"⟩),
        .addResource ⟨"task", "1"⟩ (some ⟨"project", "1"⟩),
        .addResource ⟨"note", "1"⟩ (some ⟨"task", "1"⟩), .removeResource ⟨"team", "1"⟩,
        .addResource ⟨"team", "1"⟩ (some ⟨"org", "1"⟩)] :=
  careful_run_exact _ (by decide +kernel)

/-- An organisation that is added twice has two rows for itself. -/
theorem addResource_again_doubles_rows :
    ¬ ∀ actions : List ClosureStep, Along step Exact start actions := by
  intro h
  have hrun := h [.addResource ⟨"org", "1"⟩ none, .addResource ⟨"org", "1"⟩ none]
  exact absurd hrun.2.1.1.once (by decide +kernel)

end ClosureRun

end Vertz.Spec
