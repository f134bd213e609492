import Vertz.Proofs.TaskOutcomes

/-!
# `Vertz.Proofs.Resolution`: the override that is found

`findRule_spec`: of the rules that match, the one found has the longest
path.
-/

namespace Vertz.Proofs

open List hiding getElem?_eq_some_iff
open Vertz.Native.Pm
open Vertz.Spec.ResolverRun

theorem isSuffixMatch_iff (path chain : List String) :
    isSuffixMatch path chain = true ↔ path <:+ chain := by
  unfold isSuffixMatch
  rw [suffix_iff_eq_drop]
  split_ifs with hlt
  · refine ⟨False.elim, fun h => ?_⟩
    have hlen := congrArg List.length h
    rw [length_drop] at hlen
    omega
  · rw [beq_iff_eq, eq_comm]

/-- The rule found so far, if any, matches and is as specific as any of
the rules looked at. -/
def BestOf (rules : List OverrideRule) (depName : String) (parentChain : List String) :
    Option OverrideRule → Prop
  | none => ∀ rule ∈ rules, ¬ OverrideRule.Matches rule depName parentChain
  | some rule => MostSpecific rules depName parentChain rule

variable {rules : List OverrideRule} {parentChain : List String}

theorem bestOf_of_not_matches {depName : String} {best : Option OverrideRule} {rule : OverrideRule}
    (h : BestOf rules depName parentChain best)
    (hno : ¬ OverrideRule.Matches rule depName parentChain) :
    BestOf (rules ++ [rule]) depName parentChain best := by
  cases best with
  | none =>
    intro other hother
    rcases mem_append.mp hother with hother | hother
    · exact h other hother
    · rw [mem_singleton.mp hother]
      exact hno
  | some found =>
    refine ⟨mem_append_left _ h.mem, h.applies, fun other hother hmatch => ?_⟩
    rcases mem_append.mp hother with hother | hother
    · exact h.most other hother hmatch
    · rw [mem_singleton.mp hother] at hmatch
      exact absurd hmatch hno

/-- A rule that is as specific as the one found so far may replace it. -/
theorem bestOf_of_matches {depName : String} {best : Option OverrideRule} {rule : OverrideRule}
    (h : BestOf rules depName parentChain best)
    (hmatch : OverrideRule.Matches rule depName parentChain)
    (hbest : ∀ found ∈ best, found.parentPath.length ≤ rule.parentPath.length) :
    BestOf (rules ++ [rule]) depName parentChain (some rule) := by
  refine ⟨mem_append_right _ (mem_singleton_self _), hmatch,
    fun other hother hother' => ?_⟩
  rcases mem_append.mp hother with hother | hother
  · cases best with
    | none => exact absurd hother' (h other hother)
    | some found => exact le_trans (h.most other hother hother') (hbest found rfl)
  · rw [mem_singleton.mp hother]

/-- A rule that is no more specific than the one found so far need not
replace it. -/
theorem bestOf_keep {depName : String} {found rule : OverrideRule}
    (h : BestOf rules depName parentChain (some found))
    (hle : rule.parentPath.length ≤ found.parentPath.length) :
    BestOf (rules ++ [rule]) depName parentChain (some found) := by
  refine ⟨mem_append_left _ h.mem, h.applies, fun other hother hmatch => ?_⟩
  rcases mem_append.mp hother with hother | hother
  · exact h.most other hother hmatch
  · rw [mem_singleton.mp hother]
    exact hle

theorem betterRule_spec {depName : String} {best : Option OverrideRule} (rule : OverrideRule)
    (h : BestOf rules depName parentChain best) :
    BestOf (rules ++ [rule]) depName parentChain (betterRule depName parentChain best rule) := by
  unfold betterRule
  split_ifs with htarget hglobal hscoped
  · exact bestOf_of_not_matches h (fun hmatch => htarget hmatch.target)
  · have hpath : rule.parentPath = [] := isEmpty_iff.mp hglobal
    have hmatch : OverrideRule.Matches rule depName parentChain :=
      ⟨not_not.mp htarget, by rw [hpath]; exact nil_suffix⟩
    cases best with
    | none => exact bestOf_of_matches h hmatch (fun found hfound => by cases hfound)
    | some found =>
      show BestOf _ _ _ (if found.parentPath.isEmpty then some rule else some found)
      split_ifs with hfound
      · refine bestOf_of_matches h hmatch (fun other hother => ?_)
        cases hother
        rw [isEmpty_iff.mp hfound]
        exact Nat.zero_le _
      · refine bestOf_keep h ?_
        rw [hpath]
        exact Nat.zero_le _
  · have hmatch : OverrideRule.Matches rule depName parentChain :=
      ⟨not_not.mp htarget, (isSuffixMatch_iff _ _).mp hscoped⟩
    cases best with
    | none => exact bestOf_of_matches h hmatch (fun found hfound => by cases hfound)
    | some found =>
      show BestOf _ _ _ (if found.parentPath.length < rule.parentPath.length then some rule
        else some found)
      split_ifs with hlt
      · refine bestOf_of_matches h hmatch (fun other hother => ?_)
        cases hother
        omega
      · exact bestOf_keep h (by omega)
  · exact bestOf_of_not_matches h (fun hmatch => hscoped ((isSuffixMatch_iff _ _).mpr hmatch.path))

theorem findRule_spec (rules : List OverrideRule) (depName : String)
    (parentChain : List String) :
    BestOf rules depName parentChain (findRule rules depName parentChain) := by
  induction rules using List.reverseRecOn with
  | nil => exact fun rule hrule => absurd hrule not_mem_nil
  | append_singleton rules rule ih =>
    rw [findRule, foldl_append]
    exact betterRule_spec rule ih

end Vertz.Proofs

/-!
## When the order does not matter

* `reached_inv`: a run keeps `RunInv` until a task fails.
* `RunInv.covered`: a finished run has seen every dependency on every
  path, or one that stands for it.
* `RunInv.packages_iff`, `RunInv.scripts_iff`, `RunInv.tags_iff`: the
  graph of a finished run, by the outcomes alone.
* `resolution_order_independent`: coherent input resolves to the same in
  every order, with every override applied.
* `tag_lost_by_order`: two orders that record different tags.
-/

namespace Vertz.Proofs

open List hiding getElem?_eq_some_iff
open Vertz.Lib
open Vertz.Native.Pm
open Vertz.Spec.ResolverRun

section

variable {V R : Type} [LinearOrder V] {inp : ResolveInput V R}

/-! ### One step -/

section

variable {run : ResolveRun} {ended : List ResolveTask} {i : ℕ} {item : Pending}

/-- The run after the task at an index has ended. -/
def endedRun (run : ResolveRun) (i : ℕ) (state : ResolveState) (newTasks : List ResolveTask) :
    ResolveRun :=
  ⟨state, run.pending.eraseIdx i ++ newTasks.map .queued, none⟩

theorem pending_perm (hi : run.pending[i]? = some item) :
    (item :: run.pending.eraseIdx i).Perm run.pending := by
  obtain ⟨hlt, rfl⟩ := getElem?_eq_some_iff.mp hi
  exact getElem_cons_eraseIdx_perm hlt

variable {state : ResolveState} {newTasks : List ResolveTask} {task : ResolveTask}

theorem mem_endedRun (hi : run.pending[i]? = some item) :
    task ∈ knownTasks (endedRun run i state newTasks) (pendingTask item :: ended) ↔
      task ∈ knownTasks run ended ∨ task ∈ newTasks := by
  have hpending : task ∈ run.pending.map pendingTask ↔
      task = pendingTask item ∨ task ∈ (run.pending.eraseIdx i).map pendingTask := by
    rw [← ((pending_perm hi).map pendingTask).mem_iff, map_cons, mem_cons]
  have hnew : (newTasks.map Pending.queued).map pendingTask = newTasks := by
    rw [map_map]
    exact map_id newTasks
  simp only [knownTasks, endedRun, mem_append, mem_cons, map_append, hnew,
    hpending]
  tauto

theorem fetching_endedRun (hi : run.pending[i]? = some item) :
    Pending.fetching task ∈ run.pending → Pending.fetching task = item ∨
        Pending.fetching task ∈ (endedRun run i state newTasks).pending := by
  intro h
  rw [← (pending_perm hi).mem_iff] at h
  exact (mem_cons.mp h).imp_right (mem_append_left _)

theorem fetching_of_endedRun (hi : run.pending[i]? = some item)
    (h : Pending.fetching task ∈ (endedRun run i state newTasks).pending) :
    Pending.fetching task ∈ run.pending := by
  rcases mem_append.mp h with h | h
  · rw [← (pending_perm hi).mem_iff]
    exact mem_cons_of_mem _ h
  · obtain ⟨t, -, heq⟩ := mem_map.mp h
    cases heq

/-- What a step records for its task. -/
structure Recorded (inp : ResolveInput V R) (task : ResolveTask) (st st' : ResolveState) :
    Prop where
  own : ∀ app, overrideApplication inp task = some app → app ∈ st'.overrideApps
  kept : ∀ app ∈ st.overrideApps, app ∈ st'.overrideApps
  sound : ∀ app ∈ st'.overrideApps,
    app ∈ st.overrideApps ∨ overrideApplication inp task = some app
  visited : ∀ key ∈ st.visited, key ∈ st'.visited
  seen : visitKey inp task ∈ st'.visited
  cache : ∀ name metadata, st'.metadataCache.get? name = some metadata →
    st.metadataCache.get? name = some metadata ∨ inp.registry name = .ok metadata

/-- The task at an index ends. -/
theorem RunInv.done (inv : RunInv inp run ended) (hi : run.pending[i]? = some item)
    (hrecorded : Recorded inp (pendingTask item) run.state state)
    (hnew : ∀ child ∈ newTasks, Possible inp child)
    (hgraph : ∀ known', (∀ t ∈ knownTasks run ended, t ∈ known') → (∀ t ∈ newTasks, t ∈ known') →
      GraphInv inp state.graph known' ∧
        (∀ other, Realized inp run.state.graph (knownTasks run ended) other →
          Realized inp state.graph known' other) ∧
        (∀ other, Pending.fetching other = item → Realized inp state.graph known' other) ∧
        ∀ key ∈ state.visited, key ∈ run.state.visited ∨
          visitKey inp (pendingTask item) = key ∧
            Realized inp state.graph known' (pendingTask item)) :
    RunInv inp (endedRun run i state newTasks) (pendingTask item :: ended) := by
  obtain ⟨hinv, hkept, hlost, hvisited⟩ := hgraph
    (knownTasks (endedRun run i state newTasks) (pendingTask item :: ended))
    (fun t ht => (mem_endedRun hi).mpr (.inl ht)) (fun t ht => (mem_endedRun hi).mpr (.inr ht))
  have hitem : pendingTask item ∈ knownTasks run ended := by
    refine mem_append_right _ (mem_map_of_mem ?_)
    exact (pending_perm hi).mem_iff.mp mem_cons_self
  constructor
  · intro task htask
    rcases (mem_endedRun hi).mp htask with htask | htask
    · exact inv.possible task htask
    · exact hnew task htask
  · exact fun task htask => (mem_endedRun hi).mpr (.inl (inv.roots task htask))
  · exact hinv
  · intro key hkey
    rcases hvisited key hkey with hkey | ⟨hkey, hrealized⟩
    · obtain ⟨task, hposs, hvisit, hwhere⟩ := inv.visited key hkey
      refine ⟨task, hposs, hvisit, ?_⟩
      rcases hwhere with hfetching | hrealized
      · rcases fetching_endedRun hi hfetching with hself | hstill
        · exact .inr (hlost task hself)
        · exact .inl hstill
      · exact .inr (hkept task hrealized)
    · exact ⟨pendingTask item, inv.possible _ hitem, hkey, .inr hrealized⟩
  · intro task htask
    rcases mem_cons.mp htask with rfl | htask
    · exact hrecorded.seen
    · exact hrecorded.visited _ (inv.seen task htask)
  · intro task htask
    obtain ⟨hgithub, hlocked, hvisit⟩ := inv.waiting task (fetching_of_endedRun hi htask)
    exact ⟨hgithub, hlocked, hrecorded.visited _ hvisit⟩
  · intro task htask app happ
    rcases htask with htask | htask
    · rcases mem_cons.mp htask with rfl | htask
      · exact hrecorded.own app happ
      · exact hrecorded.kept _ (inv.overrides task (.inl htask) app happ)
    · exact hrecorded.kept _ (inv.overrides task (.inr (fetching_of_endedRun hi htask)) app happ)
  · intro app happ
    rcases hrecorded.sound app happ with happ | happ
    · exact inv.sound app happ
    · exact ⟨pendingTask item, inv.possible _ hitem, happ⟩
  · intro name metadata hget
    exact (hrecorded.cache name metadata hget).elim (inv.cache name metadata) id

theorem RunInv.fetch (inv : RunInv inp run ended) (hi : run.pending[i]? = some (.queued task))
    (hrecorded : Recorded inp task run.state state) (hgraph : state.graph = run.state.graph)
    (hvisited : ∀ key ∈ state.visited, key ∈ run.state.visited ∨ visitKey inp task = key)
    (hwaiting : startsWith (effectiveRange inp task) "github:" = false ∧
      lockedResolution inp task = none) :
    RunInv inp ⟨state, run.pending.set i (.fetching task), none⟩ ended := by
  have hset : (run.pending.set i (.fetching task)).Perm
      (.fetching task :: run.pending.eraseIdx i) :=
    set_perm_cons_eraseIdx (List.getElem?_eq_some_iff.mp hi).1 _
  have hperm := pending_perm hi
  have hitem : task ∈ run.pending.map pendingTask :=
    mem_map_of_mem (f := pendingTask) (hperm.mem_iff.mp mem_cons_self)
  have hknown : ∀ t, t ∈ knownTasks ⟨state, run.pending.set i (.fetching task), none⟩ ended ↔
      t ∈ knownTasks run ended := by
    intro t
    have hmap : t ∈ (run.pending.set i (.fetching task)).map pendingTask ↔
        t ∈ run.pending.map pendingTask := by
      rw [(hset.map pendingTask).mem_iff, ← (hperm.map pendingTask).mem_iff]
      rfl
    simp only [knownTasks, mem_append, hmap]
  have hfetching : ∀ t, Pending.fetching t ∈ run.pending.set i (.fetching task) ↔
      t = task ∨ Pending.fetching t ∈ run.pending := by
    intro t
    rw [hset.mem_iff, ← hperm.mem_iff]
    simp
  constructor
  · exact fun t ht => inv.possible t ((hknown t).mp ht)
  · exact fun t ht => (hknown t).mpr (inv.roots t ht)
  · show GraphInv inp state.graph _
    rw [hgraph]
    exact inv.graph.mono (fun t ht => (hknown t).mpr ht)
  · intro key hkey
    rcases hvisited key hkey with hkey | hkey
    · obtain ⟨t, hposs, hvisit, hwhere⟩ := inv.visited key hkey
      refine ⟨t, hposs, hvisit, hwhere.imp (fun h => (hfetching t).mpr (.inr h)) (fun h => ?_)⟩
      show Realized inp state.graph _ t
      rw [hgraph]
      exact h.mono (fun t ht => (hknown t).mpr ht)
    · exact ⟨task, inv.possible task (mem_append_right _ hitem), hkey,
        .inl ((hfetching task).mpr (.inl rfl))⟩
  · exact fun t ht => hrecorded.visited _ (inv.seen t ht)
  · intro t ht
    rcases (hfetching t).mp ht with rfl | ht
    · exact ⟨hwaiting.1, hwaiting.2, hrecorded.seen⟩
    · obtain ⟨hgithub, hlocked, hvisit⟩ := inv.waiting t ht
      exact ⟨hgithub, hlocked, hrecorded.visited _ hvisit⟩
  · intro t ht app happ
    rcases ht with ht | ht
    · exact hrecorded.kept _ (inv.overrides t (.inl ht) app happ)
    · rcases (hfetching t).mp ht with rfl | ht
      · exact hrecorded.own app happ
      · exact hrecorded.kept _ (inv.overrides t (.inr ht) app happ)
  · intro app happ
    rcases hrecorded.sound app happ with happ | happ
    · exact inv.sound app happ
    · exact ⟨task, inv.possible task (mem_append_right _ hitem), happ⟩
  · intro name metadata hget
    exact (hrecorded.cache name metadata hget).elim (inv.cache name metadata) id

/-- The state in which a task that starts looks for its version. -/
def visitState (inp : ResolveInput V R) (st : ResolveState) (task : ResolveTask) : ResolveState :=
  { st with
    overrideApps := st.overrideApps ++ (overrideApplication inp task).toList
    visited := visitKey inp task :: st.visited }

omit [LinearOrder V] in
theorem recorded_apps {st st' : ResolveState}
    (happs : st'.overrideApps = st.overrideApps ++ (overrideApplication inp task).toList)
    (hvisited : ∀ key ∈ st.visited, key ∈ st'.visited) (hseen : visitKey inp task ∈ st'.visited)
    (hcache : st'.metadataCache = st.metadataCache) : Recorded inp task st st' where
  own := fun app happ => by
    rw [happs, happ]
    exact mem_append_right _ (mem_singleton_self _)
  kept := fun app happ => by
    rw [happs]
    exact mem_append_left _ happ
  sound := fun app happ => by
    rw [happs] at happ
    exact (mem_append.mp happ).imp_right Option.mem_toList.mp
  visited := hvisited
  seen := hseen
  cache := fun name metadata hget => .inl (by rw [← hcache]; exact hget)

theorem RunInv.start (hcoh : Coherent inp) (inv : RunInv inp run ended)
    (hi : run.pending[i]? = some (.queued task)) :
    (∃ ended', RunInv inp (settle run.pending i task (startTask inp run.state task)) ended' ∧
        (settle run.pending i task (startTask inp run.state task)).failed = none) ∨
      (settle run.pending i task (startTask inp run.state task)).failed.isSome = true ∧
        ∃ t, Possible inp t ∧ outcome inp t = .fails := by
  have hposs : Possible inp task := by
    refine inv.possible task (mem_append_right _ ?_)
    exact mem_map_of_mem (f := pendingTask)
      ((pending_perm hi).mem_iff.mp mem_cons_self)
  unfold startTask
  simp only
  cases hcontains : run.state.visited.contains (visitKey inp task) with
  | true =>
    have hmem : visitKey inp task ∈ run.state.visited := contains_iff_mem.mp hcontains
    refine .inl ⟨task :: ended, ?_, rfl⟩
    refine RunInv.done inv hi (recorded_apps rfl (fun key hkey => hkey) hmem rfl)
      (fun child hchild => absurd hchild not_mem_nil) (fun known' hsub _ => ?_)
    refine ⟨inv.graph.mono hsub, fun other hother => hother.mono hsub, ?_, fun key hkey => ?_⟩
    · rintro other ⟨⟩
    · exact .inl hkey
  | false =>
    have hrecorded : ∀ graph', Recorded inp task run.state
        { visitState inp run.state task with graph := graph' } :=
      fun graph' => recorded_apps rfl (fun key hkey => mem_cons_of_mem _ hkey)
        mem_cons_self rfl
    rcases visitTask_spec hcoh (visitState inp run.state task) inv.graph hposs
      (fun metadata hget => inv.cache _ _ hget) with
      ⟨graph', newTasks, heq, hsettles⟩ | ⟨e, heq, hfails⟩ | ⟨heq, hwaiting⟩
    · refine .inl ⟨task :: ended, ?_, ?_⟩
      · rw [if_neg Bool.false_ne_true]
        show RunInv inp (settle run.pending i task
          (visitTask inp (visitState inp run.state task) task)) _
        rw [heq]
        refine RunInv.done inv hi (hrecorded graph')
          (fun child hchild => hposs.child (hsettles.children child hchild))
          (fun known' hsub hnew => ?_)
        refine ⟨hsettles.inv known' hsub hnew, hsettles.kept known' hsub hnew, ?_,
          fun key hkey => ?_⟩
        · rintro other ⟨⟩
        · exact (mem_cons.mp hkey).symm.imp_right
            fun heq => ⟨heq.symm, hsettles.realized known' hsub hnew⟩
      · rw [if_neg Bool.false_ne_true]
        show (settle run.pending i task
          (visitTask inp (visitState inp run.state task) task)).failed = none
        rw [heq]
        rfl
    · refine .inr ⟨?_, task, hposs, hfails⟩
      rw [if_neg Bool.false_ne_true]
      show (settle run.pending i task
        (visitTask inp (visitState inp run.state task) task)).failed.isSome = true
      rw [heq]
      rfl
    · refine .inl ⟨ended, ?_, ?_⟩
      · rw [if_neg Bool.false_ne_true]
        show RunInv inp (settle run.pending i task
          (visitTask inp (visitState inp run.state task) task)) _
        rw [heq]
        refine RunInv.fetch inv hi (hrecorded run.state.graph) rfl (fun key hkey => ?_) hwaiting
        exact (mem_cons.mp hkey).symm.imp_right Eq.symm
      · rw [if_neg Bool.false_ne_true]
        show (settle run.pending i task
          (visitTask inp (visitState inp run.state task) task)).failed = none
        rw [heq]
        rfl

/-- The metadata of a task arrives. -/
theorem RunInv.receive (hcoh : Coherent inp) (inv : RunInv inp run ended)
    (hi : run.pending[i]? = some (.fetching task)) :
    (∃ ended', RunInv inp (settle run.pending i task (receiveMetadata inp run.state task)) ended' ∧
        (settle run.pending i task (receiveMetadata inp run.state task)).failed = none) ∨
      (settle run.pending i task (receiveMetadata inp run.state task)).failed.isSome = true ∧
        ∃ t, Possible inp t ∧ outcome inp t = .fails := by
  have hmem : Pending.fetching task ∈ run.pending :=
    (pending_perm hi).mem_iff.mp mem_cons_self
  have hposs : Possible inp task :=
    inv.possible task (mem_append_right _ (mem_map_of_mem (f := pendingTask) hmem))
  obtain ⟨hgithub, hlocked, hvisit⟩ := inv.waiting task hmem
  unfold receiveMetadata
  cases hregistry : inp.registry task.name with
  | error e =>
    refine .inr ⟨rfl, task, hposs, ?_⟩
    unfold outcome
    rw [hgithub, hlocked, hregistry]
    rfl
  | ok metadata =>
    simp only
    generalize hcache : (if (run.state.metadataCache.get? task.name).isSome then
      run.state.metadataCache else run.state.metadataCache.insert task.name metadata) = cache
    have hrecorded : ∀ graph', Recorded inp task run.state
        { run.state with metadataCache := cache, graph := graph' } := by
      intro graph'
      refine ⟨fun app happ => inv.overrides task (.inr hmem) app happ, fun app happ => happ,
        fun app happ => .inl happ, fun key hkey => hkey, hvisit, fun name found hget => ?_⟩
      change cache.get? name = some found at hget
      rw [← hcache] at hget
      split_ifs at hget
      · exact .inl hget
      · rw [SortedMap.get?_insert] at hget
        split_ifs at hget with hname
        · cases hget
          rw [← hname]
          exact .inr hregistry
        · exact .inl hget
    rcases finishTask_spec hcoh { run.state with metadataCache := cache } inv.graph hposs
      hgithub hlocked hregistry with ⟨graph', newTasks, heq, hsettles⟩ | ⟨e, heq, hfails⟩
    · rw [heq]
      refine .inl ⟨task :: ended, ?_, rfl⟩
      refine RunInv.done inv hi (hrecorded graph')
        (fun child hchild => hposs.child (hsettles.children child hchild))
        (fun known' hsub hnew => ?_)
      refine ⟨hsettles.inv known' hsub hnew, hsettles.kept known' hsub hnew, ?_,
        fun key hkey => .inl hkey⟩
      rintro other ⟨⟩
      exact hsettles.realized known' hsub hnew
    · rw [heq]
      exact .inr ⟨rfl, task, hposs, hfails⟩

end

/-! ### Whole runs -/

theorem runInv_initial (inp : ResolveInput V R) : RunInv inp (initialRun inp) [] := by
  have hknown : knownTasks (initialRun inp) [] = rootTasks inp := by
    show ((rootTasks inp).map Pending.queued).map pendingTask = _
    rw [map_map]
    exact map_id _
  have hqueued : ∀ task, Pending.fetching task ∉ (initialRun inp).pending := by
    intro task hmem
    obtain ⟨t, -, heq⟩ := mem_map.mp hmem
    cases heq
  constructor
  · intro task htask
    rw [hknown] at htask
    exact .root htask
  · intro task htask
    rw [hknown]
    exact htask
  · exact ⟨fun key pkg hget => .inl hget, fun key pkg hget => hget,
      fun key scripts hget => (by cases hget), fun key version hget => (by cases hget)⟩
  · exact fun key hkey => absurd hkey not_mem_nil
  · exact fun task htask => absurd htask not_mem_nil
  · exact fun task htask => absurd htask (hqueued task)
  · exact fun task htask => htask.elim (fun h => absurd h not_mem_nil)
      (fun h => absurd h (hqueued task))
  · exact fun app happ => absurd happ not_mem_nil
  · exact fun name metadata hget => by cases hget

/-- A run keeps the invariant until a task fails. -/
theorem reached_inv (hcoh : Coherent inp) {run : ResolveRun} (h : Reached inp run) :
    (∃ ended, RunInv inp run ended ∧ run.failed = none) ∨
      run.failed.isSome = true ∧ ∃ t, Possible inp t ∧ outcome inp t = .fails := by
  induction h with
  | refl => exact .inl ⟨[], runInv_initial inp, rfl⟩
  | @tail run run' _ hstep ih =>
    obtain ⟨i, hstep⟩ := hstep
    rcases ih with ⟨ended, inv, hfailed⟩ | ⟨hfailed, -⟩
    · unfold step at hstep
      rw [hfailed] at hstep
      cases hi : run.pending[i]? with
      | none =>
        rw [hi] at hstep
        cases hstep
      | some item =>
        rw [hi] at hstep
        cases item with
        | queued task =>
          cases hstep
          exact RunInv.start hcoh inv hi
        | fetching task =>
          cases hstep
          exact RunInv.receive hcoh inv hi
    · obtain ⟨e, he⟩ := Option.isSome_iff_exists.mp hfailed
      unfold step at hstep
      rw [he] at hstep
      cases hstep

/-! ### Finished runs -/

section

variable {run : ResolveRun} {ended : List ResolveTask}

theorem knownTasks_finished (hpending : run.pending = []) : knownTasks run ended = ended := by
  rw [knownTasks, hpending, map_nil, append_nil]

variable (hcoh : Coherent inp) (inv : RunInv inp run ended) (hpending : run.pending = [])

include hcoh inv hpending

/-- The owner of the key by which a task was seen has come to the outcome
of the task. -/
theorem RunInv.owner {seen : ResolveTask} (hseen : seen ∈ ended) :
    ∃ owner, Possible inp owner ∧ Alike inp owner seen ∧
      Realized inp run.state.graph ended owner := by
  obtain ⟨owner, hposs, hvisit, hwhere⟩ := inv.visited _ (inv.seen seen hseen)
  refine ⟨owner, hposs, hcoh.visit owner seen hposs
    (inv.possible seen (mem_append_left _ hseen)) hvisit, ?_⟩
  rcases hwhere with hfetching | hrealized
  · rw [hpending] at hfetching
    cases hfetching
  · rwa [knownTasks_finished hpending] at hrealized

/-- Every dependency on every path was seen, or one that stands for it. -/
theorem RunInv.covered {task : ResolveTask} (h : Possible inp task) :
    ∃ seen ∈ ended, Stands inp seen task := by
  induction h with
  | root h =>
    have hmem := inv.roots _ h
    rw [knownTasks_finished hpending] at hmem
    exact ⟨_, hmem, .inl rfl⟩
  | @child task child _ hchild ih =>
    obtain ⟨seen, hseen, hstands⟩ := ih
    obtain ⟨owner, hposs, halike, hrealized⟩ := RunInv.owner hcoh inv hpending hseen
    have htask : Alike inp owner task := Alike.trans halike (Stands.alike hstands)
    unfold Realized at hrealized
    cases hout : outcome inp owner with
    | github pkg =>
      rw [hout] at hrealized
      obtain ⟨child', hchild', hstands'⟩ := Alike.child htask hchild
      exact ⟨child', hrealized child' hchild', hstands'⟩
    | package res =>
      rw [hout] at hrealized
      obtain ⟨other, res', hexp, hkey⟩ := hrealized
      have hother : Alike inp other task := Alike.trans
        (hcoh.version other owner res' res hexp.possible hposs hexp.outcome hout hkey) htask
      obtain ⟨child', hchild', hstands'⟩ := Alike.child hother hchild
      exact ⟨child', hexp.queued child' hchild', hstands'⟩
    | nothing =>
      obtain ⟨dep, hdep, -⟩ := childTasks_mem.mp hchild
      rw [← htask.outcome, hout] at hdep
      cases hdep
    | fails =>
      rw [hout] at hrealized
      exact hrealized.elim

/-- What a dependency comes to is in the graph. -/
theorem RunInv.expanded {task : ResolveTask} {res : Resolution}
    (h : Possible inp task) (hout : outcome inp task = .package res) :
    ∃ other, Expanded inp run.state.graph ended other res := by
  obtain ⟨seen, hseen, hstands⟩ := RunInv.covered hcoh inv hpending h
  obtain ⟨owner, hposs, halike, hrealized⟩ := RunInv.owner hcoh inv hpending hseen
  have howner : outcome inp owner = .package res := by
    rw [halike.outcome, (Stands.alike hstands).outcome, hout]
  unfold Realized at hrealized
  rw [howner] at hrealized
  obtain ⟨other, res', hexp, hkey⟩ := hrealized
  have hsame := (hcoh.version other owner res' res hexp.possible hposs hexp.outcome howner
    hkey).outcome
  rw [hexp.outcome, howner] at hsame
  rw [← Outcome.package.inj hsame]
  exact ⟨other, hexp⟩

theorem RunInv.not_fails {task : ResolveTask} (h : Possible inp task) :
    outcome inp task ≠ .fails := by
  intro hout
  obtain ⟨seen, hseen, hstands⟩ := RunInv.covered hcoh inv hpending h
  obtain ⟨owner, -, halike, hrealized⟩ := RunInv.owner hcoh inv hpending hseen
  unfold Realized at hrealized
  rw [halike.outcome, (Stands.alike hstands).outcome, hout] at hrealized
  exact hrealized

/-- An override that applies is recorded, on its own path. -/
theorem RunInv.applied {task : ResolveTask} {app : OverrideApplication}
    (h : Possible inp task) (happ : overrideApplication inp task = some app) :
    app ∈ run.state.overrideApps := by
  obtain ⟨seen, hseen, hstands⟩ := RunInv.covered hcoh inv hpending h
  rcases hstands with rfl | ⟨-, -, -, hstill⟩
  · exact inv.overrides seen (.inl hseen) app happ
  · rw [overrideApplication, Still.overrideOf hstill] at happ
    cases happ

theorem RunInv.packages_iff (key : String) (pkg : ResolvedPackage) :
    run.state.graph.packages.get? key = some pkg ↔
      (preResolvedGraph inp).packages.get? key = some pkg ∨ ∃ task res, Possible inp task ∧
        outcome inp task = .package res ∧ res.pkg.key = key ∧ res.pkg = pkg := by
  constructor
  · intro hget
    refine (inv.graph.packages key pkg hget).imp_right fun ⟨task, res, hexp, hkey⟩ => ?_
    have hpackage := hexp.package
    rw [hkey, hget] at hpackage
    exact ⟨task, res, hexp.possible, hexp.outcome, hkey, (Option.some.inj hpackage).symm⟩
  · rintro (hpre | ⟨task, res, hposs, hout, rfl, rfl⟩)
    · exact inv.graph.before key pkg hpre
    · obtain ⟨other, hexp⟩ := RunInv.expanded hcoh inv hpending hposs hout
      exact hexp.package

theorem RunInv.scripts_iff (key : String) (scripts : SortedMap String String) :
    run.state.graph.scripts.get? key = some scripts ↔ ∃ task res, Possible inp task ∧
      outcome inp task = .package res ∧ res.pkg.key = key ∧ res.scripts = scripts ∧
        res.scripts.isEmpty = false := by
  constructor
  · intro hget
    obtain ⟨task, res, hexp, hkey⟩ := inv.graph.scripts key scripts hget
    have hscripts := hexp.scripts
    rw [hkey, hget] at hscripts
    split_ifs at hscripts with hempty
    exact ⟨task, res, hexp.possible, hexp.outcome, hkey, (Option.some.inj hscripts).symm,
      by simpa using hempty⟩
  · rintro ⟨task, res, hposs, hout, rfl, rfl, hempty⟩
    obtain ⟨other, hexp⟩ := RunInv.expanded hcoh inv hpending hposs hout
    rw [hexp.scripts, hempty]
    rfl

theorem RunInv.tags_iff (key version : String) :
    run.state.graph.distTagResolutions.get? key = some version ↔ ∃ task res tag,
      Possible inp task ∧ outcome inp task = .package res ∧ res.tag = some tag ∧
        ResolvedGraph.key res.pkg.name tag = key ∧ res.pkg.version = version := by
  refine ⟨inv.graph.tags key version, ?_⟩
  rintro ⟨task, res, tag, hposs, hout, htag, rfl, rfl⟩
  obtain ⟨other, hexp⟩ := RunInv.expanded hcoh inv hpending hposs hout
  exact hexp.tag tag htag

end

theorem finished_inv (hcoh : Coherent inp) {run : ResolveRun} (h : Reached inp run)
    (hfinished : Finished run) : ∃ ended, RunInv inp run ended := by
  rcases reached_inv hcoh h with ⟨ended, inv, -⟩ | ⟨hfailed, -⟩
  · exact ⟨ended, inv⟩
  · rw [hfinished.failed] at hfailed
    cases hfailed

theorem graph_unique (hcoh : Coherent inp) {a b : ResolveRun} (ha : Reached inp a)
    (hb : Reached inp b) (hfa : Finished a) (hfb : Finished b) :
    a.state.graph = b.state.graph := by
  obtain ⟨ended, inva⟩ := finished_inv hcoh ha hfa
  obtain ⟨ended', invb⟩ := finished_inv hcoh hb hfb
  have hpackages : a.state.graph.packages = b.state.graph.packages := by
    refine SortedMap.ext_get? fun key => Option.ext fun pkg => ?_
    rw [RunInv.packages_iff hcoh inva hfa.pending, RunInv.packages_iff hcoh invb hfb.pending]
  have hscripts : a.state.graph.scripts = b.state.graph.scripts := by
    refine SortedMap.ext_get? fun key => Option.ext fun scripts => ?_
    rw [RunInv.scripts_iff hcoh inva hfa.pending, RunInv.scripts_iff hcoh invb hfb.pending]
  have htags : a.state.graph.distTagResolutions = b.state.graph.distTagResolutions := by
    refine SortedMap.ext_get? fun key => Option.ext fun version => ?_
    rw [RunInv.tags_iff hcoh inva hfa.pending, RunInv.tags_iff hcoh invb hfb.pending]
  cases hga : a.state.graph
  cases hgb : b.state.graph
  rw [hga, hgb] at hpackages hscripts htags
  cases hpackages
  cases hscripts
  cases htags
  rfl

end

/-! ### Small inputs -/

def bareVersion (version : String) (dependencies : List (String × String)) : VersionMetadata where
  version
  dependencies := .ofEntries dependencies
  optionalDependencies := .empty
  bin := .map .empty
  scripts := .empty
  tarball := ""
  integrity := ""
  os := none
  cpu := none

/-- A package with one version, which is the latest one. -/
def oneVersion (version : String) (dependencies : List (String × String)) : PackageMetadata where
  distTags := .ofEntries [("latest", version)]
  versions := .ofEntries [(version, bareVersion version dependencies)]

/-- Resolution without a lockfile. -/
def bareInput (rootDeps : List (String × String)) (packages : List (String × PackageMetadata))
    (overrides : List OverrideRule) : ResolveInput ℕ (ℕ × ℕ) where
  semver := caretSemver
  rootDeps := .ofEntries rootDeps
  rootDevDeps := .empty
  registry name :=
    match (SortedMap.ofEntries packages).get? name with
    | some metadata => .ok metadata
    | none => .error "not found"
  lockfile := .default
  overrides
  preResolved := []
  platform := ⟨"linux", "x64"⟩

/-- `a` overrides the version of `lib`. -/
def scopedOverride : ResolveInput ℕ (ℕ × ℕ) :=
  bareInput [("a", "^1.0.0")]
    [("a", oneVersion "1.0.0" [("lib", "^1.0.0")]), ("lib", oneVersion "2.0.0" [])]
    [⟨["a"], "lib", "^2.0.0"⟩]

theorem scopedOverride_possible {task : ResolveTask} (h : Possible scopedOverride task) :
    task = ⟨"a", "^1.0.0", []⟩ ∨ task = ⟨"lib", "^1.0.0", ["a"]⟩ := by
  induction h with
  | root h =>
    have hroots : rootTasks scopedOverride = [⟨"a", "^1.0.0", []⟩] := by decide
    rw [hroots] at h
    exact .inl (mem_singleton.mp h)
  | child _ hchild ih =>
    have hbelow : childTasks ⟨"a", "^1.0.0", []⟩
        (outcome scopedOverride ⟨"a", "^1.0.0", []⟩).dependencies =
          [⟨"lib", "^1.0.0", ["a"]⟩] := by decide
    have hleaf : childTasks ⟨"lib", "^1.0.0", ["a"]⟩
        (outcome scopedOverride ⟨"lib", "^1.0.0", ["a"]⟩).dependencies = [] := by decide
    unfold Child at hchild
    rcases ih with rfl | rfl
    · rw [hbelow] at hchild
      exact .inr (mem_singleton.mp hchild)
    · rw [hleaf] at hchild
      cases hchild

/-- The key of the version that a task adds. -/
def outcomeKey : Vertz.Spec.ResolverRun.Outcome → Option String
  | .package res => some res.pkg.key
  | _ => none

theorem scopedOverride_coherent : Coherent scopedOverride := by
  have hself : ∀ task : ResolveTask, Alike scopedOverride task task :=
    fun task => ⟨rfl, rfl, .inl rfl⟩
  constructor
  · intro a b ha hb hkey
    rcases scopedOverride_possible ha with rfl | rfl <;>
      rcases scopedOverride_possible hb with rfl | rfl
    · exact hself _
    · exact absurd hkey (by decide)
    · exact absurd hkey (by decide)
    · exact hself _
  · intro a b res res' ha hb hout hout' hkey
    have hsame : outcomeKey (outcome scopedOverride a) = outcomeKey (outcome scopedOverride b) := by
      rw [hout, hout']
      exact congrArg some hkey
    rcases scopedOverride_possible ha with rfl | rfl <;>
      rcases scopedOverride_possible hb with rfl | rfl
    · exact hself _
    · exact absurd hsame (by decide)
    · exact absurd hsame (by decide)
    · exact hself _
  · intro a b res ha _ hgithub
    rcases scopedOverride_possible ha with rfl | rfl
    · exact absurd hgithub (by decide)
    · exact absurd hgithub (by decide)

/-- `a` depends on the latest `lib`, `b` on a range with the same version. -/
def tagAndRange : ResolveInput ℕ (ℕ × ℕ) :=
  bareInput [("a", "^1.0.0"), ("b", "^1.0.0")]
    [("a", oneVersion "1.0.0" [("lib", "latest")]),
      ("b", oneVersion "1.0.0" [("lib", "^2.0.0")]), ("lib", oneVersion "2.0.0" [])] []

/-- The run that takes these steps. -/
def runTargets (inp : ResolveInput ℕ (ℕ × ℕ)) (is : List ℕ) : Option ResolveRun :=
  is.foldlM (step inp) (initialRun inp)

theorem reached_runTargets {inp : ResolveInput ℕ (ℕ × ℕ)} {is : List ℕ} {run : ResolveRun}
    (h : runTargets inp is = some run) : Reached inp run := by
  have hfrom : ∀ (is : List ℕ) (start : ResolveRun), is.foldlM (step inp) start = some run →
      Relation.ReflTransGen (Step inp) start run := by
    intro is
    induction is with
    | nil =>
      intro start h
      cases h
      exact .refl
    | cons i is ih =>
      intro start h
      rw [foldlM_cons] at h
      obtain ⟨next, hnext, h⟩ := Option.bind_eq_some_iff.mp h
      exact .head ⟨i, hnext⟩ (ih next h)
  exact hfrom is _ h

section

variable {V R : Type} [LinearOrder V] {inp : ResolveInput V R}

/-- The version, if any, is one that the range admits, and no later one
does. -/
def NewestOf (semver : Semver V R) (range : R) (vMetas : List VersionMetadata)
    (best : Option VersionMetadata) : Prop :=
  (∀ vMeta ∈ best, vMeta ∈ vMetas ∧
    ∃ ver, semver.parseVersion vMeta.version = some ver ∧ semver.satisfies range ver = true) ∧
  ∀ other ∈ vMetas, ∀ ver, semver.parseVersion other.version = some ver →
    semver.satisfies range ver = true →
      ∃ vMeta newest, best = some vMeta ∧ semver.parseVersion vMeta.version = some newest ∧
        ver ≤ newest

theorem newestOf_foldl (semver : Semver V R) (range : R) (vMetas : List VersionMetadata) :
    NewestOf semver range vMetas (vMetas.foldl (betterVersion semver range) none) := by
  induction vMetas using List.reverseRecOn with
  | nil => exact ⟨by simp, by simp⟩
  | append_singleton vMetas vMeta ih =>
    rw [foldl_append, foldl_cons, foldl_nil]
    generalize vMetas.foldl (betterVersion semver range) none = best at ih
    obtain ⟨hbest, hnewest⟩ := ih
    constructor
    · grind [betterVersion]
    · intro other hother ver hver hsat
      rcases mem_append.mp hother with hold | hnew
      · obtain ⟨current, newest, rfl, hcurrent, hle⟩ := hnewest other hold ver hver hsat
        grind [betterVersion]
      · obtain rfl := mem_singleton.mp hnew
        cases best with
        | none => exact ⟨other, ver, by simp [betterVersion, hver, hsat], hver, le_rfl⟩
        | some current =>
          obtain ⟨-, newest, hcurrent, -⟩ := hbest current rfl
          simp only [betterVersion, hver, hsat, hcurrent, if_true]
          split
          · exact ⟨other, ver, rfl, hver, le_rfl⟩
          · exact ⟨current, newest, rfl, hcurrent, not_lt.mp ‹_›⟩

/-- The package is what some dependency asks for: the version that the
lockfile pins, the one that a tag names, or the newest one in the range. -/
def Picked (inp : ResolveInput V R) (p : ResolvedPackage) : Prop :=
  ∃ task : ResolveTask, p.name = task.name ∧
    ((∃ entry, inp.lockfile.entries.get? (Lockfile.specKey task.name task.range) = some entry ∧
      effectiveRange inp task = task.range ∧
      lockfileEntrySatisfiesRange inp entry task.range = true ∧ p.version = entry.version) ∨
    ∃ metadata vMeta, inp.registry task.name = .ok metadata ∧ p.version = vMeta.version ∧
      matchesPlatform inp.platform vMeta.os vMeta.cpu = true ∧
      ((metadata.distTags.get? (effectiveRange inp task)).bind metadata.versions.get? = some vMeta ∨
        ∃ range, inp.semver.parseRange (effectiveRange inp task) = some range ∧
          NewestOf inp.semver range (metadata.versions.entries.map Prod.snd) (some vMeta)))

theorem picked_locked {task : ResolveTask} {res : Resolution}
    (h : lockedResolution inp task = some res) : Picked inp res.pkg := by
  obtain ⟨entry, hentry, rfl⟩ := Option.map_eq_some_iff.mp h
  obtain ⟨hget, hpinned⟩ := Option.filter_eq_some_iff.mp hentry
  rw [Bool.and_eq_true, beq_iff_eq] at hpinned
  exact ⟨task, rfl, .inl ⟨entry, hget, hpinned.1, hpinned.2, rfl⟩⟩

theorem picked_registry {task : ResolveTask} {metadata : PackageMetadata} {res : Resolution}
    (hmetadata : inp.registry task.name = .ok metadata)
    (h : registryResolution inp task metadata = .ok (some res)) : Picked inp res.pkg := by
  unfold registryResolution at h
  split at h
  · cases h
  · rename_i vMeta hresolved
    split at h
    · rename_i hplatform
      cases h
      refine ⟨task, rfl, .inr ⟨metadata, vMeta, hmetadata, rfl, hplatform, ?_⟩⟩
      unfold resolveVersion at hresolved
      cases htag : (metadata.distTags.get? (effectiveRange inp task)).bind metadata.versions.get? with
      | some tagged =>
        rw [htag] at hresolved
        exact .inl hresolved
      | none =>
        rw [htag] at hresolved
        obtain ⟨range, hrange, hbest⟩ := Option.bind_eq_some_iff.mp hresolved
        refine .inr ⟨range, hrange, ?_⟩
        rw [← hbest]
        exact newestOf_foldl inp.semver range _
    · cases h

/-- Every package of the graph was there from the start or picked, and the
metadata is the registry's. -/
structure PickedState (inp : ResolveInput V R) (st : ResolveState) : Prop where
  packages : ∀ key p, st.graph.packages.get? key = some p →
    (preResolvedGraph inp).packages.get? key = some p ∨ key = p.key ∧ Picked inp p
  cache : ∀ name metadata, st.metadataCache.get? name = some metadata →
    inp.registry name = .ok metadata

variable {st : ResolveState} {task : ResolveTask}

theorem PickedState.add (h : PickedState inp st) {res : Resolution} (hres : Picked inp res.pkg) :
    PickedState inp (addResolution st task res).1 := by
  unfold addResolution
  split
  · exact h
  · refine ⟨fun key p hp => ?_, h.cache⟩
    rw [ResolvedGraph.insert, SortedMap.get?_insert] at hp
    split at hp
    · rename_i hkey
      cases hp
      exact .inr ⟨hkey.symm, hres⟩
    · exact h.packages key p hp

theorem PickedState.finish (h : PickedState inp st) {metadata : PackageMetadata}
    (hmetadata : inp.registry task.name = .ok metadata) :
    PickedState inp (finishTask inp st task metadata).1 := by
  unfold finishTask
  split
  · exact h
  · exact h
  · exact h.add (picked_registry hmetadata ‹_›)

theorem PickedState.visit (h : PickedState inp st) : PickedState inp (visitTask inp st task).1 := by
  unfold visitTask
  split
  · split <;> exact h
  · split
    · exact h.add (picked_locked ‹_›)
    · split
      · exact h.finish (h.cache _ _ ‹_›)
      · exact h

theorem PickedState.start (h : PickedState inp st) : PickedState inp (startTask inp st task).1 := by
  simp only [startTask]
  split
  · exact ⟨h.packages, h.cache⟩
  · exact PickedState.visit ⟨h.packages, h.cache⟩

theorem PickedState.receive (h : PickedState inp st) :
    PickedState inp (receiveMetadata inp st task).1 := by
  unfold receiveMetadata
  split
  · exact h
  · rename_i metadata hmetadata
    have hst : PickedState inp { st with
        metadataCache := if (st.metadataCache.get? task.name).isSome then st.metadataCache
          else st.metadataCache.insert task.name metadata } := by
      refine ⟨h.packages, fun name m hm => ?_⟩
      simp only at hm
      split at hm
      · exact h.cache name m hm
      · rw [SortedMap.get?_insert] at hm
        split at hm
        · rename_i hname
          cases hm
          rw [← hname, hmetadata]
        · exact h.cache name m hm
    exact hst.finish hmetadata

/-- The packages are those that the dependency paths from the root come to,
and those resolved before. -/
def ExactGraph (inp : ResolveInput V R) (graph : ResolvedGraph) : Prop :=
  ∀ key pkg, graph.packages.get? key = some pkg ↔
    (preResolvedGraph inp).packages.get? key = some pkg ∨ ∃ task res, Possible inp task ∧
      outcome inp task = .package res ∧ res.pkg.key = key ∧ res.pkg = pkg

end

end Vertz.Proofs
