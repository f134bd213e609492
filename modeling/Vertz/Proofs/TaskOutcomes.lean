import Vertz.Spec.Resolution

/-!
# `Vertz.Proofs.TaskOutcomes`: one task of the resolution
-/

namespace Vertz.Proofs

open Vertz.Native.Pm.ResolvedGraph
open Vertz.Lib
open Vertz.Native.Pm
open Vertz.Spec.ResolverRun SortedMap

/-! ### Tasks that come to the same -/

section

variable {V R : Type} [LinearOrder V] {inp : ResolveInput V R}

theorem childTasks_mem {task child : ResolveTask} {dependencies : List (String × String)} :
    child ∈ childTasks task dependencies ↔ ∃ dep ∈ dependencies,
      child = ⟨dep.1, dep.2, task.parentChain ++ [task.name]⟩ := by
  simp [childTasks, eq_comm]

theorem Still.child {task child : ResolveTask} (h : Still inp task)
    (hchild : Child inp task child) : Still inp child :=
  fun below hbelow => h below (.head hchild hbelow)

theorem Still.overrideOf {task : ResolveTask} (h : Still inp task) : overrideOf inp task = none :=
  h task .refl

/-- Tasks of one name, chain and outcome have the same tasks below them. -/
theorem child_congr {a b : ResolveTask} (hname : a.name = b.name)
    (houtcome : outcome inp a = outcome inp b) (hchain : a.parentChain = b.parentChain)
    (child : ResolveTask) : Child inp a child ↔ Child inp b child := by
  unfold Child childTasks
  rw [hname, houtcome, hchain]

theorem Quiet.congr {a b : ResolveTask} (hname : a.name = b.name)
    (houtcome : outcome inp a = outcome inp b) (hchain : a.parentChain = b.parentChain)
    (h : Quiet inp a) : Quiet inp b :=
  fun child hchild => h child ((child_congr hname houtcome hchain child).mpr hchild)

theorem Alike.trans {a b c : ResolveTask} (hab : Alike inp a b) (hbc : Alike inp b c) :
    Alike inp a c := by
  refine ⟨hab.name.trans hbc.name, hab.outcome.trans hbc.outcome, ?_⟩
  rcases hab.below with hchain | ⟨ha, hb⟩
  · rcases hbc.below with hchain' | ⟨hb, hc⟩
    · exact .inl (hchain.trans hchain')
    · exact .inr ⟨Quiet.congr hab.name.symm hab.outcome.symm hchain.symm hb, hc⟩
  · rcases hbc.below with hchain' | ⟨-, hc⟩
    · exact .inr ⟨ha, Quiet.congr hbc.name hbc.outcome hchain' hb⟩
    · exact .inr ⟨ha, hc⟩

/-- The task itself was looked at, or one that differs in the path only
while no override applies below either. -/
def Stands (inp : ResolveInput V R) (a b : ResolveTask) : Prop :=
  a = b ∨ a.name = b.name ∧ a.range = b.range ∧ Still inp a ∧ Still inp b

/-- What a task comes to depends on its path only through the override. -/
theorem outcome_congr {a b : ResolveTask} (hname : a.name = b.name) (hrange : a.range = b.range)
    (hover : overrideOf inp a = overrideOf inp b) : outcome inp a = outcome inp b := by
  have heff : effectiveRange inp a = effectiveRange inp b := by
    unfold effectiveRange
    rw [hover, hrange]
  have hlocked : lockedResolution inp a = lockedResolution inp b := by
    unfold lockedResolution
    rw [hname, hrange, heff]
  have hregistry : ∀ metadata, registryResolution inp a metadata =
      registryResolution inp b metadata := by
    intro metadata
    unfold registryResolution
    rw [hname, heff]
  unfold outcome
  rw [heff, hname, hlocked]
  simp only [hregistry]

theorem Stands.alike {a b : ResolveTask} (h : Stands inp a b) : Alike inp a b := by
  rcases h with rfl | ⟨hname, hrange, ha, hb⟩
  · exact ⟨rfl, rfl, .inl rfl⟩
  · refine ⟨hname, outcome_congr hname hrange ?_, .inr ⟨?_, ?_⟩⟩
    · rw [Still.overrideOf ha, Still.overrideOf hb]
    · exact fun child hchild => Still.child ha hchild
    · exact fun child hchild => Still.child hb hchild

/-- Below tasks that come to the same, every task has one that stands for
it. -/
theorem Alike.child {a b child : ResolveTask} (h : Alike inp a b) (hchild : Child inp b child) :
    ∃ child', Child inp a child' ∧ Stands inp child' child := by
  rcases h.below with hchain | ⟨ha, hb⟩
  · exact ⟨child, (child_congr h.name h.outcome hchain child).mpr hchild, .inl rfl⟩
  · obtain ⟨dep, hdep, rfl⟩ := childTasks_mem.mp hchild
    have hchild' : Child inp a ⟨dep.1, dep.2, a.parentChain ++ [a.name]⟩ :=
      childTasks_mem.mpr ⟨dep, by rw [h.outcome]; exact hdep, rfl⟩
    exact ⟨_, hchild', .inr ⟨rfl, rfl, ha _ hchild', hb _ hchild⟩⟩

/-! ### The invariant -/

def pendingTask : Pending → ResolveTask
  | .queued task => task
  | .fetching task => task

/-- The dependencies of the task are known to the run. -/
def Queued (inp : ResolveInput V R) (known : List ResolveTask) (task : ResolveTask) : Prop :=
  ∀ child, Child inp task child → child ∈ known

/-- The version is in the graph with all that belongs to it, and its
dependencies are known. -/
structure Expanded (inp : ResolveInput V R) (graph : ResolvedGraph) (known : List ResolveTask)
    (task : ResolveTask) (res : Resolution) : Prop where
  possible : Possible inp task
  outcome : outcome inp task = .package res
  package : graph.packages.get? res.pkg.key = some res.pkg
  scripts : graph.scripts.get? res.pkg.key = if res.scripts.isEmpty then none else some res.scripts
  tag : ∀ tag ∈ res.tag,
    graph.distTagResolutions.get? (key res.pkg.name tag) = some res.pkg.version
  queued : Queued inp known task

/-- What the task comes to is in the graph, by itself or by another one
of the same version. -/
def Realized (inp : ResolveInput V R) (graph : ResolvedGraph) (known : List ResolveTask)
    (task : ResolveTask) : Prop :=
  match outcome inp task with
  | .nothing => True
  | .github _ => Queued inp known task
  | .package res => ∃ other res', Expanded inp graph known other res' ∧ res'.pkg.key = res.pkg.key
  | .fails => False

/-- What is in the graph came from possible tasks, or was there before. -/
structure GraphInv (inp : ResolveInput V R) (graph : ResolvedGraph) (known : List ResolveTask) :
    Prop where
  packages : ∀ key pkg, graph.packages.get? key = some pkg →
    (preResolvedGraph inp).packages.get? key = some pkg ∨
      ∃ task res, Expanded inp graph known task res ∧ res.pkg.key = key
  before : ∀ key pkg, (preResolvedGraph inp).packages.get? key = some pkg →
    graph.packages.get? key = some pkg
  scripts : ∀ key scripts, graph.scripts.get? key = some scripts →
    ∃ task res, Expanded inp graph known task res ∧ res.pkg.key = key
  tags : ∀ key version, graph.distTagResolutions.get? key = some version →
    ∃ task res tag, Possible inp task ∧ outcome inp task = .package res ∧ res.tag = some tag ∧
      ResolvedGraph.key res.pkg.name tag = key ∧ res.pkg.version = version

def knownTasks (run : ResolveRun) (ended : List ResolveTask) : List ResolveTask :=
  ended ++ run.pending.map pendingTask

/-- The invariant of a run that has ended the tasks `ended`. -/
structure RunInv (inp : ResolveInput V R) (run : ResolveRun) (ended : List ResolveTask) :
    Prop where
  possible : ∀ task ∈ knownTasks run ended, Possible inp task
  roots : ∀ task ∈ rootTasks inp, task ∈ knownTasks run ended
  graph : GraphInv inp run.state.graph (knownTasks run ended)
  /-- A visited key belongs to a task that is fetching or has come to its
  outcome. -/
  visited : ∀ key ∈ run.state.visited, ∃ task, Possible inp task ∧ visitKey inp task = key ∧
    (Pending.fetching task ∈ run.pending ∨
      Realized inp run.state.graph (knownTasks run ended) task)
  seen : ∀ task ∈ ended, visitKey inp task ∈ run.state.visited
  /-- A task that fetches is not settled by what is known already. -/
  waiting : ∀ task, Pending.fetching task ∈ run.pending →
    startsWith (effectiveRange inp task) "github:" = false ∧ lockedResolution inp task = none ∧
      visitKey inp task ∈ run.state.visited
  overrides : ∀ task, task ∈ ended ∨ Pending.fetching task ∈ run.pending →
    ∀ app, overrideApplication inp task = some app → app ∈ run.state.overrideApps
  sound : ∀ app ∈ run.state.overrideApps, ∃ task, Possible inp task ∧
    overrideApplication inp task = some app
  cache : ∀ name metadata, run.state.metadataCache.get? name = some metadata →
    inp.registry name = .ok metadata

section

variable {graph : ResolvedGraph} {known known' : List ResolveTask} {task : ResolveTask}
  {res : Resolution}

theorem Expanded.mono (h : Expanded inp graph known task res) (hsub : ∀ t ∈ known, t ∈ known') :
    Expanded inp graph known' task res :=
  { h with queued := fun child hchild => hsub child (h.queued child hchild) }

theorem Realized.mono (h : Realized inp graph known task) (hsub : ∀ t ∈ known, t ∈ known') :
    Realized inp graph known' task := by
  unfold Realized at h ⊢
  cases hout : outcome inp task with
  | nothing => trivial
  | github pkg =>
    rw [hout] at h
    exact fun child hchild => hsub child (h child hchild)
  | package res =>
    rw [hout] at h
    obtain ⟨other, res', hexp, hkey⟩ := h
    exact ⟨other, res', hexp.mono hsub, hkey⟩
  | fails =>
    rw [hout] at h
    exact h

theorem GraphInv.mono (h : GraphInv inp graph known) (hsub : ∀ t ∈ known, t ∈ known') :
    GraphInv inp graph known' where
  packages := fun key pkg hget => (h.packages key pkg hget).imp_right
    fun ⟨task, res, hexp, hkey⟩ => ⟨task, res, hexp.mono hsub, hkey⟩
  before := h.before
  scripts := fun key scripts hget =>
    let ⟨task, res, hexp, hkey⟩ := h.scripts key scripts hget
    ⟨task, res, hexp.mono hsub, hkey⟩
  tags := h.tags

omit [LinearOrder V] in
theorem added_eq_package {res' : Resolution} (h : added inp res = .package res') :
    res' = res ∧ resolvedBefore inp res.pkg.key = false := by
  unfold added at h
  split_ifs at h with hbefore
  cases h
  exact ⟨rfl, by simpa using hbefore⟩

omit [LinearOrder V] in
theorem lockedResolution_some (h : lockedResolution inp task = some res) :
    res.pkg.name = task.name ∧ res.tag = none := by
  unfold lockedResolution at h
  obtain ⟨entry, -, rfl⟩ := Option.map_eq_some_iff.mp h
  exact ⟨rfl, rfl⟩

theorem registryResolution_some {metadata : PackageMetadata}
    (h : registryResolution inp task metadata = .ok (some res)) :
    res.pkg.name = task.name ∧ ∀ tag ∈ res.tag, tag = effectiveRange inp task := by
  unfold registryResolution at h
  split at h
  · cases h
  · split at h
    · cases h
      refine ⟨rfl, fun tag htag => ?_⟩
      change (if isDistTagShape inp.semver (effectiveRange inp task) then
        some (effectiveRange inp task) else none) = some tag at htag
      split_ifs at htag
      exact (Option.some.inj htag).symm
    · cases h

/-- Where a version comes from. -/
theorem outcome_package (h : outcome inp task = .package res) :
    resolvedBefore inp res.pkg.key = false ∧ res.pkg.name = task.name ∧
      ∀ tag ∈ res.tag, tag = effectiveRange inp task := by
  unfold outcome at h
  split at h
  · split at h <;> cases h
  · split at h
    · rename_i locked hlocked
      obtain ⟨rfl, hbefore⟩ := added_eq_package h
      obtain ⟨hname, htag⟩ := lockedResolution_some hlocked
      exact ⟨hbefore, hname, fun tag hmem => by rw [htag] at hmem; cases hmem⟩
    · split at h
      · cases h
      · split at h
        · cases h
        · cases h
        · rename_i found hfound
          obtain ⟨rfl, hbefore⟩ := added_eq_package h
          exact ⟨hbefore, registryResolution_some hfound⟩

theorem tag_key (h : outcome inp task = .package res) {tag : String} (htag : res.tag = some tag) :
    key res.pkg.name tag = visitKey inp task := by
  obtain ⟨-, hname, heff⟩ := outcome_package h
  rw [hname, heff tag htag]
  rfl

theorem GraphInv.insert (hcoh : Coherent inp) (h : GraphInv inp graph known)
    (hposs : Possible inp task) (hout : outcome inp task = .package res)
    (hnew : graph.packages.get? res.pkg.key = none) (hsub : ∀ t ∈ known, t ∈ known')
    (hqueued : Queued inp known' task) :
    GraphInv inp (graph.insert res) known' ∧ Expanded inp (graph.insert res) known' task res ∧
      ∀ other res', Expanded inp graph known other res' →
        Expanded inp (graph.insert res) known' other res' := by
  have hpackage : ∀ key, (graph.insert res).packages.get? key =
      if res.pkg.key = key then some res.pkg else graph.packages.get? key :=
    fun key => get?_insert _ _ _ _
  have hscripts : ∀ key, (graph.insert res).scripts.get? key =
      if res.pkg.key = key ∧ res.scripts.isEmpty = false then some res.scripts
      else graph.scripts.get? key := by
    intro key
    show (graph.insertScripts res).get? key = _
    unfold insertScripts
    cases hempty : res.scripts.isEmpty with
    | true => simp
    | false => simp [get?_insert]
  have hnoscripts : graph.scripts.get? res.pkg.key = none := by
    cases hget : graph.scripts.get? res.pkg.key with
    | none => rfl
    | some scripts =>
      obtain ⟨other, res', hexp, hkey⟩ := h.scripts _ _ hget
      have hpkg := hexp.package
      rw [hkey, hnew] at hpkg
      cases hpkg
  have htag : ∀ key version, (graph.insert res).distTagResolutions.get? key = some version →
      graph.distTagResolutions.get? key = some version ∨
        ∃ tag, res.tag = some tag ∧ ResolvedGraph.key res.pkg.name tag = key ∧
          res.pkg.version = version := by
    intro key version hget
    change (graph.insertTag res).get? key = some version at hget
    unfold insertTag at hget
    cases htag : res.tag with
    | none =>
      rw [htag] at hget
      exact .inl hget
    | some tag =>
      rw [htag, get?_insert] at hget
      split_ifs at hget with hkey
      · exact .inr ⟨tag, rfl, hkey, Option.some.inj hget⟩
      · exact .inl hget
  have hkept : ∀ other res', Expanded inp graph known other res' →
      Expanded inp (graph.insert res) known' other res' := by
    intro other res' hexp
    have hne : res.pkg.key ≠ res'.pkg.key := by
      intro heq
      have hpkg := hexp.package
      rw [← heq, hnew] at hpkg
      cases hpkg
    refine ⟨hexp.possible, hexp.outcome, ?_, ?_, fun tag htag' => ?_,
      fun child hchild => hsub child (hexp.queued child hchild)⟩
    · rw [hpackage, if_neg hne]
      exact hexp.package
    · rw [hscripts, if_neg (fun hboth => hne hboth.1)]
      exact hexp.scripts
    · -- the tag may be recorded again, for the same version
      show (graph.insertTag res).get? _ = _
      unfold insertTag
      cases hown : res.tag with
      | none => exact hexp.tag tag htag'
      | some own =>
        show (graph.distTagResolutions.insert _ _).get? _ = _
        rw [get?_insert]
        split_ifs with hkey
        · rw [tag_key hout hown, tag_key hexp.outcome htag'] at hkey
          have halike := hcoh.visit _ _ hposs hexp.possible hkey
          have hsame := halike.outcome
          rw [hout, hexp.outcome] at hsame
          rw [Outcome.package.inj hsame]
        · exact hexp.tag tag htag'
  have hself : Expanded inp (graph.insert res) known' task res := by
    refine ⟨hposs, hout, ?_, ?_, fun tag htag' => ?_, hqueued⟩
    · rw [hpackage, if_pos rfl]
    · rw [hscripts, hnoscripts]
      cases res.scripts.isEmpty <;> simp
    · show (graph.insertTag res).get? _ = _
      unfold insertTag
      rw [show res.tag = some tag from htag']
      show (graph.distTagResolutions.insert _ _).get? _ = _
      rw [get?_insert, if_pos rfl]
  refine ⟨⟨fun key pkg hget => ?_, fun key pkg hget => ?_, fun key scripts hget => ?_,
    fun key version hget => ?_⟩, hself, hkept⟩
  · rw [hpackage] at hget
    split_ifs at hget with hkey
    · exact .inr ⟨task, res, hself, hkey⟩
    · exact (h.packages key pkg hget).imp_right
        fun ⟨other, res', hexp, hkey⟩ => ⟨other, res', hkept other res' hexp, hkey⟩
  · rw [hpackage, if_neg, h.before key pkg hget]
    intro hkey
    have hbefore := h.before key pkg hget
    rw [← hkey, hnew] at hbefore
    cases hbefore
  · rw [hscripts] at hget
    split_ifs at hget with hkey
    · exact ⟨task, res, hself, hkey.1⟩
    · obtain ⟨other, res', hexp, hkey⟩ := h.scripts key scripts hget
      exact ⟨other, res', hkept other res' hexp, hkey⟩
  · rcases htag key version hget with hget | ⟨tag, htag, hkey, hversion⟩
    · exact h.tags key version hget
    · exact ⟨task, res, tag, hposs, hout, htag, hkey, hversion⟩

/-! ### One task -/

/-- The task comes to its outcome: the graph becomes `graph'` and the
tasks `newTasks` are added. -/
structure Settles (inp : ResolveInput V R) (graph : ResolvedGraph) (known : List ResolveTask)
    (task : ResolveTask) (graph' : ResolvedGraph) (newTasks : List ResolveTask) : Prop where
  children : ∀ child ∈ newTasks, Child inp task child
  inv : ∀ known', (∀ t ∈ known, t ∈ known') → (∀ t ∈ newTasks, t ∈ known') →
    GraphInv inp graph' known'
  realized : ∀ known', (∀ t ∈ known, t ∈ known') → (∀ t ∈ newTasks, t ∈ known') →
    Realized inp graph' known' task
  kept : ∀ known', (∀ t ∈ known, t ∈ known') → (∀ t ∈ newTasks, t ∈ known') →
    ∀ other, Realized inp graph known other → Realized inp graph' known' other

/-- Nothing is to be added to the graph. -/
theorem Settles.same {newTasks : List ResolveTask} (h : GraphInv inp graph known)
    (hchildren : ∀ child ∈ newTasks, Child inp task child)
    (hrealized : ∀ known', (∀ t ∈ known, t ∈ known') → (∀ t ∈ newTasks, t ∈ known') →
      Realized inp graph known' task) : Settles inp graph known task graph newTasks where
  children := hchildren
  inv := fun _ hsub _ => h.mono hsub
  realized := hrealized
  kept := fun _ hsub _ _ hother => hother.mono hsub

theorem addResolution_spec (hcoh : Coherent inp) {st : ResolveState}
    (h : GraphInv inp st.graph known) (hposs : Possible inp task)
    (hout : outcome inp task = added inp res) :
    ∃ graph' newTasks, addResolution st task res = ({ st with graph := graph' }, .done newTasks) ∧
      Settles inp st.graph known task graph' newTasks := by
  unfold addResolution
  cases hget : st.graph.packages.get? res.pkg.key with
  | some pkg =>
    refine ⟨st.graph, [], rfl, Settles.same h (by simp) (fun known' hsub _ => ?_)⟩
    unfold Realized
    rw [hout]
    unfold added
    split_ifs with hbefore
    · trivial
    · rcases h.packages _ _ hget with hpre | ⟨other, res', hexp, hkey⟩
      · refine absurd ?_ hbefore
        show ((preResolvedGraph inp).packages.get? res.pkg.key).isSome = true
        rw [hpre]
        rfl
      · exact ⟨other, res', hexp.mono hsub, hkey⟩
  | none =>
    have hbefore : resolvedBefore inp res.pkg.key = false := by
      unfold resolvedBefore
      cases hpre : (preResolvedGraph inp).packages.get? res.pkg.key with
      | none => rfl
      | some pkg =>
        have hsame := h.before _ _ hpre
        rw [hget] at hsame
        cases hsame
    have hpackage : outcome inp task = .package res := by
      rw [hout, added, hbefore]
      rfl
    have hchildren : ∀ child, Child inp task child ↔
        child ∈ childTasks task res.pkg.allDependencies := by
      intro child
      unfold Child
      rw [hpackage]
      rfl
    have hinsert : ∀ known', (∀ t ∈ known, t ∈ known') →
        (∀ t ∈ childTasks task res.pkg.allDependencies, t ∈ known') →
          GraphInv inp (st.graph.insert res) known' ∧
            Expanded inp (st.graph.insert res) known' task res ∧
              ∀ other res', Expanded inp st.graph known other res' →
                Expanded inp (st.graph.insert res) known' other res' :=
      fun known' hsub hnew => h.insert hcoh hposs hpackage hget hsub
        (fun child hchild => hnew child ((hchildren child).mp hchild))
    refine ⟨st.graph.insert res, childTasks task res.pkg.allDependencies, rfl,
      fun child hchild => (hchildren child).mpr hchild,
      fun known' hsub hnew => (hinsert known' hsub hnew).1,
      fun known' hsub hnew => ?_, fun known' hsub hnew other hother => ?_⟩
    · unfold Realized
      rw [hpackage]
      exact ⟨task, res, (hinsert known' hsub hnew).2.1, rfl⟩
    · unfold Realized at hother ⊢
      cases hout' : outcome inp other with
      | nothing => trivial
      | github pkg =>
        rw [hout'] at hother
        exact fun child hchild => hsub child (hother child hchild)
      | package res' =>
        rw [hout'] at hother
        obtain ⟨owner, res'', hexp, hkey⟩ := hother
        exact ⟨owner, res'', (hinsert known' hsub hnew).2.2 owner res'' hexp, hkey⟩
      | fails =>
        rw [hout'] at hother
        exact hother

/-- A GitHub package is found whatever was added to the graph. -/
theorem findByName_eq (hcoh : Coherent inp) (h : GraphInv inp graph known)
    (hposs : Possible inp task)
    (hgithub : startsWith (effectiveRange inp task) "github:" = true) :
    graph.findByName task.name = (preResolvedGraph inp).findByName task.name := by
  refine Option.ext fun pkg => ?_
  unfold findByName
  rw [find?_values, find?_values]
  simp only [beq_iff_eq]
  constructor
  · rintro ⟨key, hget, hname, hleast⟩
    have hpre : (preResolvedGraph inp).packages.get? key = some pkg := by
      rcases h.packages key pkg hget with hpre | ⟨other, res', hexp, hkey⟩
      · exact hpre
      · -- another version of the name would come before it
        have hsame := hexp.package
        rw [hkey, hget] at hsame
        cases hsame
        obtain ⟨p, hp, hpname, hlt⟩ := hcoh.github task other res' hposs hexp.possible hgithub
          hexp.outcome hname
        rw [hkey] at hlt
        exact absurd hlt (not_lt.mpr (hleast p.key p (h.before _ _ hp) hpname))
    exact ⟨key, hpre, hname, fun key' q hq => hleast key' q (h.before _ _ hq)⟩
  · rintro ⟨key, hget, hname, hleast⟩
    refine ⟨key, h.before _ _ hget, hname, fun key' q hq hqname => ?_⟩
    rcases h.packages key' q hq with hpre | ⟨other, res', hexp, hkey⟩
    · exact hleast key' q hpre hqname
    · have hsame := hexp.package
      rw [hkey, hq] at hsame
      cases hsame
      obtain ⟨p, hp, hpname, hlt⟩ := hcoh.github task other res' hposs hexp.possible hgithub
        hexp.outcome hqname
      rw [hkey] at hlt
      exact le_trans (hleast p.key p hp hpname) (le_of_lt hlt)

theorem finishTask_spec (hcoh : Coherent inp) (st : ResolveState) {metadata : PackageMetadata}
    (h : GraphInv inp st.graph known) (hposs : Possible inp task)
    (hgithub : startsWith (effectiveRange inp task) "github:" = false)
    (hlocked : lockedResolution inp task = none)
    (hregistry : inp.registry task.name = .ok metadata) :
    (∃ graph' newTasks,
      finishTask inp st task metadata = ({ st with graph := graph' }, .done newTasks) ∧
        Settles inp st.graph known task graph' newTasks) ∨
      ∃ e, finishTask inp st task metadata = (st, .fail e) ∧ outcome inp task = .fails := by
  unfold finishTask
  cases hres : registryResolution inp task metadata with
  | error e =>
    have hout : outcome inp task = .fails := by
      unfold outcome
      rw [hgithub, hlocked, hregistry]
      simp [hres]
    exact .inr ⟨e, rfl, hout⟩
  | ok found =>
    cases found with
    | none =>
      have hout : outcome inp task = .nothing := by
        unfold outcome
        rw [hgithub, hlocked, hregistry]
        simp [hres]
      refine .inl ⟨st.graph, [], rfl, Settles.same h (by simp) (fun known' _ _ => ?_)⟩
      unfold Realized
      rw [hout]
      trivial
    | some res =>
      have hout : outcome inp task = added inp res := by
        unfold outcome
        rw [hgithub, hlocked, hregistry]
        simp [hres]
      exact .inl (addResolution_spec hcoh h hposs hout)

theorem visitTask_spec (hcoh : Coherent inp) (st : ResolveState)
    (h : GraphInv inp st.graph known) (hposs : Possible inp task)
    (hcache : ∀ metadata, st.metadataCache.get? task.name = some metadata →
      inp.registry task.name = .ok metadata) :
    (∃ graph' newTasks, visitTask inp st task = ({ st with graph := graph' }, .done newTasks) ∧
        Settles inp st.graph known task graph' newTasks) ∨
      (∃ e, visitTask inp st task = (st, .fail e) ∧ outcome inp task = .fails) ∨
        visitTask inp st task = (st, .fetch) ∧
          startsWith (effectiveRange inp task) "github:" = false ∧
            lockedResolution inp task = none := by
  unfold visitTask
  cases hgithub : startsWith (effectiveRange inp task) "github:" with
  | true =>
    have hfound := findByName_eq hcoh h hposs hgithub
    rw [if_pos rfl, hfound]
    cases hpkg : (preResolvedGraph inp).findByName task.name with
    | none =>
      have hout : outcome inp task = .nothing := by
        unfold outcome
        rw [hgithub, hpkg]
        rfl
      refine .inl ⟨st.graph, [], rfl, Settles.same h (by simp) (fun known' _ _ => ?_)⟩
      unfold Realized
      rw [hout]
      trivial
    | some pkg =>
      have hout : outcome inp task = .github pkg := by
        unfold outcome
        rw [hgithub, hpkg]
        rfl
      have hchildren : ∀ child, Child inp task child ↔
          child ∈ childTasks task pkg.allDependencies := by
        intro child
        unfold Child
        rw [hout]
        rfl
      refine .inl ⟨st.graph, childTasks task pkg.allDependencies, rfl,
        Settles.same h (fun child hchild => (hchildren child).mpr hchild)
          (fun known' _ hnew => ?_)⟩
      unfold Realized
      rw [hout]
      exact fun child hchild => hnew child ((hchildren child).mp hchild)
  | false =>
    rw [if_neg Bool.false_ne_true]
    cases hlocked : lockedResolution inp task with
    | some res =>
      refine .inl (addResolution_spec hcoh h hposs ?_)
      unfold outcome
      rw [hgithub, hlocked]
      rfl
    | none =>
      cases hget : st.metadataCache.get? task.name with
      | none => exact .inr (.inr ⟨rfl, rfl, rfl⟩)
      | some metadata =>
        exact (finishTask_spec hcoh st h hposs hgithub hlocked (hcache metadata hget)).imp_right
          .inl

end

end

end Vertz.Proofs
