import Vertz.Db.Migration.RlsDiffer

/-!
# `Vertz.Proofs.RlsDiffs`: applying an RLS diff

The changes of a diff are statements: a policy can be created when its
table has none of the name, dropped or replaced when it has one, and one
statement that fails fails the migration.
-/

namespace Vertz.Proofs

open Option hiding map_map mem_map
open Vertz.Lib
open Vertz.Db.Migration
open Vertz.Server.Entity (objectPrototypeKeys)
open List Record

/-! ### PostgreSQL -/

/-- Row-level security of a table: the flag, and the policies by name. -/
@[ext] structure TableRls where
  enabled : Bool
  policies : String → Option RlsPolicy

def TableRls.ofSnapshot : Option RlsTablePolicies → TableRls
  | none => ⟨false, fun _ => none⟩
  | some t => ⟨t.rlsEnabled, (byName t.policies).get?⟩

/-- The tables of a snapshot; one it does not list has no row-level
security and no policies. -/
def rlsStateOf (snapshot : RlsSnapshot) : String → TableRls :=
  fun t => .ofSnapshot (snapshot.tables.get? t)

def TableRls.setPolicy (s : TableRls) (name : String) (p : Option RlsPolicy) : TableRls :=
  { s with policies := Function.update s.policies name p }

/-- One change; `none` is an error of the database. -/
def applyToTable (s : TableRls) (c : RlsDiffChange) : Option TableRls :=
  match c.type, c.policy with
  | .rlsEnabled, _ => some { s with enabled := true }
  | .rlsDisabled, _ => some { s with enabled := false }
  | .policyAdded, some p =>
    if (s.policies p.name).isSome then none else some (s.setPolicy p.name (some p))
  | .policyRemoved, some p =>
    if (s.policies p.name).isSome then some (s.setPolicy p.name none) else none
  | .policyChanged, some p =>
    if (s.policies p.name).isSome then some (s.setPolicy p.name (some p)) else none
  | _, none => none

def applyChange (s : String → TableRls) (c : RlsDiffChange) : Option (String → TableRls) :=
  (applyToTable (s c.table) c).map fun t => Function.update s c.table t

def applyChanges (s : String → TableRls) (changes : List RlsDiffChange) :
    Option (String → TableRls) := changes.foldlM applyChange s

/-- What keeps a table's changes from going wrong: no policies are left
where RLS goes off, and where they are dropped one by one they have
distinct names. -/
def DiffClean (tableName : String) : Option RlsTablePolicies → Option RlsTablePolicies → Prop
  | none, _ => True
  | some b, some a =>
    b.rlsEnabled = true → a.rlsEnabled = false →
      a.policies = [] ∧ (b.policies.map RlsPolicy.name).Nodup
  | some b, none =>
    if b.rlsEnabled then
      objectPrototypeKeys.contains tableName = false ∧ (b.policies.map RlsPolicy.name).Nodup
    else b.policies = []

/-! ### Table by table -/

/-- The changes run exactly when those of each table do. -/
theorem applyChanges_iff (changes : List RlsDiffChange) (s s' : String → TableRls) :
    applyChanges s changes = some s' ↔
      ∀ t, (changes.filter fun c => c.table == t).foldlM applyToTable (s t) = some (s' t) := by
  unfold applyChanges
  induction changes generalizing s with
  | nil =>
    show some s = some s' ↔ ∀ t, some (s t) = some (s' t)
    simp only [some_inj]
    exact funext_iff
  | cons c cs ih =>
    rw [foldlM_cons]
    have hown : ((c :: cs).filter fun c' => c'.table == c.table)
        = c :: cs.filter fun c' => c'.table == c.table := by simp
    have hother : ∀ t, t ≠ c.table → ((c :: cs).filter fun c' => c'.table == t)
        = cs.filter fun c' => c'.table == t := by
      intro t ht
      rw [filter_cons_of_neg]
      simpa using ht.symm
    cases happly : applyToTable (s c.table) c with
    | none =>
      have hstep : applyChange s c = none := by rw [applyChange, happly]; rfl
      rw [hstep]
      refine iff_of_false (by simp) fun h => ?_
      have hc := h c.table
      rw [hown, foldlM_cons, happly] at hc
      cases hc
    | some x =>
      have hstep : applyChange s c = some (Function.update s c.table x) := by
        rw [applyChange, happly]
        rfl
      rw [hstep]
      show cs.foldlM applyChange (Function.update s c.table x) = some s' ↔ _
      rw [ih]
      refine forall_congr' fun t => ?_
      by_cases ht : t = c.table
      · subst ht
        rw [Function.update_self, hown, foldlM_cons, happly]
        rfl
      · rw [Function.update_of_ne ht, hother t ht]

theorem filter_flatMap_table {α : Type} {es : List (String × α)}
    {f : String × α → List RlsDiffChange} (hnodup : (es.map Prod.fst).Nodup)
    (hf : ∀ e, ∀ c ∈ f e, c.table = e.1) (t : String) :
    (es.flatMap f).filter (fun c => c.table == t)
      = ((Record.lookup t es).map fun v => f (t, v)).getD [] := by
  induction es with
  | nil => rfl
  | cons e es ih =>
    obtain ⟨k, v⟩ := e
    rw [map_cons, nodup_cons] at hnodup
    rw [flatMap_cons, filter_append, ih hnodup.2]
    by_cases hk : k = t
    · subst hk
      have hrest : Record.lookup k es = none := by
        rw [← not_isSome_iff_eq_none, lookup_isSome_iff]
        exact hnodup.1
      have hown : (f (k, v)).filter (fun c => c.table == k) = f (k, v) := by
        rw [filter_eq_self]
        intro c hc
        simpa using hf (k, v) c hc
      rw [hrest, hown]
      simp [Record.lookup]
    · have hnone : (f (k, v)).filter (fun c => c.table == t) = [] := by
        rw [filter_eq_nil_iff]
        intro c hc
        simpa [hf (k, v) c hc] using hk
      rw [hnone, nil_append]
      simp [Record.lookup, hk]

/-! ### The statements of one table -/

/-- Dropping policies one by one works when they are there, each once. -/
theorem run_removePolicies (tableName : String) (ps : List RlsPolicy) (s s' : TableRls) :
    (removePolicies tableName ps).foldlM applyToTable s = some s' ↔
      ((ps.map RlsPolicy.name).Nodup ∧ ∀ p ∈ ps, (s.policies p.name).isSome = true) ∧
        s' = ⟨s.enabled, fun n => if n ∈ ps.map RlsPolicy.name then none else s.policies n⟩ := by
  induction ps generalizing s with
  | nil =>
    have hself : (⟨s.enabled, fun n =>
        if n ∈ ([] : List RlsPolicy).map RlsPolicy.name then none else s.policies n⟩ : TableRls)
        = s := TableRls.ext rfl (funext fun n => by simp)
    show some s = some s' ↔ _
    rw [hself, some_inj]
    exact ⟨fun h => ⟨⟨nodup_nil, fun _ hp => absurd hp not_mem_nil⟩, h.symm⟩,
      fun h => h.2.symm⟩
  | cons p ps ih =>
    show ((applyToTable s _).bind fun x => (removePolicies tableName ps).foldlM applyToTable x)
      = some s' ↔ _
    have hstep : applyToTable s
          { type := .policyRemoved, table := tableName, policy := some p }
        = if (s.policies p.name).isSome then some (s.setPolicy p.name none) else none := rfl
    rw [hstep]
    by_cases hp : (s.policies p.name).isSome = true
    · rw [if_pos hp, bind_some, ih]
      have hstate : (⟨(s.setPolicy p.name none).enabled, fun n =>
            if n ∈ ps.map RlsPolicy.name then none else (s.setPolicy p.name none).policies n⟩ :
            TableRls)
          = ⟨s.enabled, fun n =>
            if n ∈ (p :: ps).map RlsPolicy.name then none else s.policies n⟩ := by
        refine TableRls.ext rfl (funext fun n => ?_)
        show (if _ then none else Function.update s.policies p.name none n) = _
        by_cases hn : n = p.name
        · subst hn
          simp
        · simp [hn, Function.update_of_ne]
      have hpresent : ((ps.map RlsPolicy.name).Nodup ∧
            ∀ q ∈ ps, ((s.setPolicy p.name none).policies q.name).isSome = true) ↔
          ((p :: ps).map RlsPolicy.name).Nodup ∧
            ∀ q ∈ p :: ps, (s.policies q.name).isSome = true := by
        rw [map_cons, nodup_cons, forall_mem_cons, mem_map]
        constructor
        · rintro ⟨hnodup, hall⟩
          refine ⟨⟨?_, hnodup⟩, hp, fun q hq => ?_⟩
          · rintro ⟨q, hq, hname⟩
            have hgone := hall q hq
            rw [hname] at hgone
            simp [TableRls.setPolicy] at hgone
          · have hkept := hall q hq
            by_cases hname : q.name = p.name
            · rw [hname]
              exact hp
            · simpa [TableRls.setPolicy, Function.update_of_ne hname] using hkept
        · rintro ⟨⟨hfresh, hnodup⟩, -, hall⟩
          refine ⟨hnodup, fun q hq => ?_⟩
          have hname : q.name ≠ p.name := fun h => hfresh ⟨q, hq, h⟩
          simpa [TableRls.setPolicy, Function.update_of_ne hname] using hall q hq
      rw [hstate, hpresent]
    · rw [if_neg hp]
      refine iff_of_false (by simp) ?_
      rintro ⟨⟨-, hall⟩, -⟩
      exact hp (hall p mem_cons_self)

/-- A change that writes a policy, where the state allows it. -/
def Writes (s : TableRls) (e : String × RlsPolicy) (c : RlsDiffChange) : Prop :=
  c.policy = some e.2 ∧ e.2.name = e.1 ∧
    (c.type = .policyAdded ∧ s.policies e.1 = none ∨
      c.type = .policyChanged ∧ (s.policies e.1).isSome = true)

variable {c : RlsDiffChange}

theorem Writes.apply {s : TableRls} {e : String × RlsPolicy} (h : Writes s e c) :
    applyToTable s c = some (s.setPolicy e.1 (some e.2)) := by
  obtain ⟨hpolicy, hname, hkind⟩ := h
  unfold applyToTable
  rcases hkind with ⟨htype, habsent⟩ | ⟨htype, hpresent⟩
  · rw [htype, hpolicy]
    simp [hname, habsent]
  · rw [htype, hpolicy]
    simp [hname, hpresent]

/-- Writing policies of distinct names, each where the state allows it. -/
theorem run_writes {es : List (String × RlsPolicy)} (f : String × RlsPolicy → RlsDiffChange)
    (hnodup : (es.map Prod.fst).Nodup) {s : TableRls} (hwrites : ∀ e ∈ es, Writes s e (f e)) :
    (es.map f).foldlM applyToTable s
      = some ⟨s.enabled, fun n => (Record.lookup n es).or (s.policies n)⟩ := by
  induction es generalizing s with
  | nil => rfl
  | cons e es ih =>
    rw [map_cons, nodup_cons] at hnodup
    rw [forall_mem_cons] at hwrites
    have hrest : ∀ e' ∈ es, Writes (s.setPolicy e.1 (some e.2)) e' (f e') := by
      intro e' he'
      have hne : e'.1 ≠ e.1 := fun h => hnodup.1 (h ▸ mem_map_of_mem he')
      obtain ⟨hpolicy, hname, hkind⟩ := hwrites.2 e' he'
      refine ⟨hpolicy, hname, ?_⟩
      rw [show (s.setPolicy e.1 (some e.2)).policies e'.1 = s.policies e'.1 from
        Function.update_of_ne hne _ _]
      exact hkind
    rw [map_cons, foldlM_cons, hwrites.1.apply]
    show (es.map f).foldlM applyToTable (s.setPolicy e.1 (some e.2)) = _
    rw [ih hnodup.2 hrest]
    refine congrArg some (TableRls.ext rfl (funext fun n => ?_))
    show (Record.lookup n es).or (Function.update s.policies e.1 (some e.2) n) = _
    by_cases hn : n = e.1
    · subst hn
      have habsent : Record.lookup e.1 es = none := by
        rw [← not_isSome_iff_eq_none, lookup_isSome_iff]
        exact hnodup.1
      simp [Record.lookup, habsent]
    · have hne : ¬ e.1 = n := fun h => hn h.symm
      simp [Record.lookup, Function.update_of_ne hn, hne]

/-! ### Two policy lists -/

variable {ps : List RlsPolicy}

theorem byName_name {e : String × RlsPolicy} (h : e ∈ (byName ps).entries) : e.2.name = e.1 := by
  obtain ⟨p, -, rfl⟩ := mem_map.mp (mem_of_mem_ofList h)
  rfl

theorem eq_of_not_policyDiffers {p q : RlsPolicy} (hname : p.name = q.name)
    (h : policyDiffers p q = false) : p = q := by
  obtain ⟨n, f, u, w⟩ := p
  obtain ⟨n', f', u', w'⟩ := q
  simp only [policyDiffers, Bool.or_eq_false_iff, bne_eq_false_iff_eq] at h
  obtain ⟨⟨rfl, rfl⟩, rfl⟩ := h
  exact congrArg (fun n => RlsPolicy.mk n f u w) hname

theorem name_of_get? {n : String} {p : RlsPolicy} (h : (byName ps).get? n = some p) : p.name = n :=
  byName_name (e := (n, p)) (((byName ps).mem_entries_iff).mpr h)

/-- The comparison turns one list of policies into the other. -/
theorem run_diffPolicies (tableName : String) (b a : List RlsPolicy) (enabled : Bool) :
    (diffPolicies tableName b a).foldlM applyToTable ⟨enabled, (byName b).get?⟩
      = some ⟨enabled, (byName a).get?⟩ := by
  -- the three groups of changes, each from the state the one before leaves
  let added := (byName a).filterEntries fun e => ((byName b).get? e.1).isNone
  let removed := (byName b).filterEntries fun e => ((byName a).get? e.1).isNone
  let changed := (byName a).filterEntries fun e =>
    ((byName b).get? e.1).any fun p => policyDiffers p e.2
  let change : String × RlsPolicy → RlsDiffChange := fun e =>
    { type := .policyChanged, table := tableName, policy := some e.2,
      oldPolicy := (byName b).get? e.1 }
  let s₁ : TableRls := ⟨enabled, fun n => (added.get? n).or ((byName b).get? n)⟩
  let s₂ : TableRls := ⟨enabled, fun n => if n ∈ removed.keys then none else s₁.policies n⟩
  have hpresent : ∀ {n : String}, ((byName b).get? n).isSome = true →
      (s₁.policies n).isSome = true := by
    intro n hn
    show ((added.get? n).or ((byName b).get? n)).isSome = true
    rw [isSome_or, hn, Bool.or_true]
  have hremovedKeys : ∀ n, n ∈ removed.keys ↔
      ((byName b).get? n).isSome = true ∧ (byName a).get? n = none := by
    intro n
    rw [mem_keys_iff, get?_filterEntries]
    cases (byName b).get? n <;> simp
  have hadded : (added.entries.map fun e : String × RlsPolicy =>
        ({ type := .policyAdded, table := tableName, policy := some e.2 } :
          RlsDiffChange)).foldlM applyToTable ⟨enabled, (byName b).get?⟩ = some s₁ := by
    refine run_writes _ added.nodup fun e he => ?_
    obtain ⟨hmem, habsent⟩ := mem_filter.mp he
    exact ⟨rfl, byName_name hmem, .inl ⟨rfl, isNone_iff_eq_none.mp habsent⟩⟩
  have hnames : (removed.entries.map Prod.snd).map RlsPolicy.name = removed.keys := by
    rw [map_map]
    exact map_congr_left fun e he => byName_name (mem_filter.mp he).1
  have hremoved : (removePolicies tableName (removed.entries.map Prod.snd)).foldlM applyToTable s₁
      = some s₂ := by
    rw [run_removePolicies, hnames]
    refine ⟨⟨removed.nodup, fun p hp => ?_⟩, rfl⟩
    have hkey : p.name ∈ removed.keys := by
      rw [← hnames]
      exact mem_map_of_mem hp
    exact hpresent ((hremovedKeys p.name).mp hkey).1
  have hchanged : (changed.entries.map change).foldlM applyToTable s₂
      = some ⟨enabled, fun n => (changed.get? n).or (s₂.policies n)⟩ := by
    refine run_writes _ changed.nodup fun e he => ?_
    obtain ⟨hmem, hdiffers⟩ := mem_filter.mp he
    refine ⟨rfl, byName_name hmem, .inr ⟨rfl, ?_⟩⟩
    have ha : (byName a).get? e.1 = some e.2 := ((byName a).mem_entries_iff).mp hmem
    have hb : ((byName b).get? e.1).isSome = true := by
      cases hb : (byName b).get? e.1 with
      | none => rw [hb] at hdiffers; cases hdiffers
      | some p => rfl
    have hkept : e.1 ∉ removed.keys := by
      rw [hremovedKeys, ha]
      simp
    show (if e.1 ∈ removed.keys then none else s₁.policies e.1).isSome = true
    rw [if_neg hkept]
    exact hpresent hb
  have hlist : diffPolicies tableName b a
      = (added.entries.map fun e : String × RlsPolicy =>
          ({ type := .policyAdded, table := tableName, policy := some e.2 } : RlsDiffChange)) ++
        removePolicies tableName (removed.entries.map Prod.snd) ++ changed.entries.map change := by
    unfold diffPolicies
    dsimp only
    congr 1
    show _ = ((byName a).entries.filter _).map change
    rw [← filterMap_eq_map, filterMap_filter]
    refine filterMap_congr fun e _ => ?_
    cases hb : (byName b).get? e.1 with
    | none => simp
    | some p => by_cases hp : policyDiffers p e.2 = true <;> simp [hp, change, hb]
  rw [hlist, foldlM_append, foldlM_append, hadded]
  show ((removePolicies _ _).foldlM applyToTable s₁ >>= fun s => (changed.entries.map change).foldlM
    applyToTable s) = _
  rw [hremoved]
  show (changed.entries.map change).foldlM applyToTable s₂ = _
  rw [hchanged]
  refine congrArg some (TableRls.ext rfl (funext fun n => ?_))
  show (changed.get? n).or (if n ∈ removed.keys then none
    else (added.get? n).or ((byName b).get? n)) = (byName a).get? n
  rw [get?_filterEntries, get?_filterEntries]
  simp only [hremovedKeys]
  cases ha : (byName a).get? n with
  | none => cases hb : (byName b).get? n <;> simp
  | some q =>
    cases hb : (byName b).get? n with
    | none => simp
    | some p =>
      by_cases hp : policyDiffers p q = true
      · simp [Option.filter, hp]
      · rw [Bool.not_eq_true] at hp
        have hpq : p = q :=
          eq_of_not_policyDiffers ((name_of_get? hb).trans (name_of_get? ha).symm) hp
        simpa [Option.filter, hp] using hpq

/-! ### The diff of one table -/

theorem table_of_mem_removePolicies {tableName : String} (h : c ∈ removePolicies tableName ps) :
    c.table = tableName := by
  obtain ⟨p, -, rfl⟩ := mem_map.mp h
  rfl

theorem table_of_mem_diffPolicies {tableName : String} {b a : List RlsPolicy}
    (h : c ∈ diffPolicies tableName b a) : c.table = tableName := by
  unfold diffPolicies at h
  dsimp only at h
  rw [mem_append, mem_append] at h
  rcases h with (h | h) | h
  · obtain ⟨e, -, rfl⟩ := mem_map.mp h
    rfl
  · exact table_of_mem_removePolicies h
  · obtain ⟨e, -, he⟩ := mem_filterMap.mp h
    split at he
    · cases he
    · split_ifs at he
      cases he
      rfl

theorem table_of_mem_diffTable {before : RlsSnapshot} {e : String × RlsTablePolicies}
    (h : c ∈ diffTable before e.1 e.2) : c.table = e.1 := by
  unfold diffTable at h
  dsimp only at h
  split_ifs at h
  all_goals rw [mem_append] at h
  · rcases h with h | h
    · exact table_of_mem_removePolicies h
    · rw [mem_singleton.mp h]
  · rcases h with h | h
    · rw [mem_singleton.mp h]
    · exact table_of_mem_diffPolicies h
  · rcases h with h | h
    · cases h
    · exact table_of_mem_diffPolicies h

theorem table_of_mem_diffGone {after : RlsSnapshot} {e : String × RlsTablePolicies}
    (h : c ∈ diffGone after e.1 e.2) : c.table = e.1 := by
  unfold diffGone at h
  split_ifs at h
  · cases h
  · rw [mem_append] at h
    rcases h with h | h
    · exact table_of_mem_removePolicies h
    · rw [mem_singleton.mp h]
  · cases h

theorem byName_isSome {n : String} :
    ((byName ps).get? n).isSome = true ↔ n ∈ ps.map RlsPolicy.name := by
  have key : ∀ (ps : List RlsPolicy) (r : Record RlsPolicy),
      ((r.insertAll (ps.map fun p => (p.name, p))).get? n).isSome = true ↔
        n ∈ ps.map RlsPolicy.name ∨ (r.get? n).isSome = true := by
    intro ps
    induction ps with
    | nil => exact fun r => by simp [Record.insertAll]
    | cons p ps ih =>
      intro r
      show (((r.insert p.name p).insertAll (ps.map fun p => (p.name, p))).get? n).isSome = true ↔ _
      rw [ih, get?_insert, map_cons, mem_cons]
      by_cases hn : p.name = n
      · subst hn
        simp
      · simp [hn, Ne.symm hn]
  exact (key ps .empty).trans (by simp)

/-- Dropping all policies and turning RLS off leaves a table without
either, when the names are distinct. -/
theorem run_dropAll (tableName : String) (b : RlsTablePolicies) (s' : TableRls) :
    (removePolicies tableName b.policies ++
          [({ type := .rlsDisabled, table := tableName } : RlsDiffChange)]).foldlM applyToTable
        (.ofSnapshot (some b)) = some s' ↔
      (b.policies.map RlsPolicy.name).Nodup ∧ s' = ⟨false, fun _ => none⟩ := by
  rw [foldlM_append]
  show (((removePolicies tableName b.policies).foldlM applyToTable (.ofSnapshot (some b))).bind
    fun s => some { s with enabled := false }) = some s' ↔ _
  rw [bind_eq_some_iff]
  constructor
  · rintro ⟨s, hs, hs'⟩
    rw [run_removePolicies] at hs
    obtain ⟨⟨hnodup, -⟩, rfl⟩ := hs
    refine ⟨hnodup, ?_⟩
    rw [← some_inj.mp hs']
    refine TableRls.ext rfl (funext fun n => ?_)
    show (if n ∈ b.policies.map RlsPolicy.name then none else (byName b.policies).get? n) = none
    split_ifs with hn
    · rfl
    · rw [← byName_isSome, not_isSome_iff_eq_none] at hn
      exact hn
  · rintro ⟨hnodup, rfl⟩
    refine ⟨⟨b.rlsEnabled, fun _ => none⟩, ?_, rfl⟩
    rw [run_removePolicies]
    refine ⟨⟨hnodup, fun p hp => byName_isSome.mpr (mem_map_of_mem hp)⟩, ?_⟩
    refine TableRls.ext rfl (funext fun n => ?_)
    show none = if n ∈ b.policies.map RlsPolicy.name then none else (byName b.policies).get? n
    split_ifs with hn
    · rfl
    · rw [← byName_isSome, not_isSome_iff_eq_none] at hn
      exact hn.symm

theorem byName_eq_empty : (byName ps).get? = (fun _ => none) ↔ ps = [] := by
  constructor
  · intro h
    cases ps with
    | nil => rfl
    | cons p ps =>
      have hp : ((byName (p :: ps)).get? p.name).isSome = true :=
        byName_isSome.mpr mem_cons_self
      rw [h] at hp
      cases hp
  · rintro rfl
    rfl

/-- Where RLS does not go off, the flag is set and the policies are
compared. -/
theorem policies_kept (tableName : String) {wasEnabled enabled : Bool} (b a : List RlsPolicy)
    (h : ¬ (wasEnabled && !enabled) = true) :
    ((if !wasEnabled && enabled then
          [({ type := .rlsEnabled, table := tableName } : RlsDiffChange)] else []) ++
        diffPolicies tableName b a).foldlM applyToTable ⟨wasEnabled, (byName b).get?⟩
      = some ⟨enabled, (byName a).get?⟩ := by
  cases wasEnabled with
  | true =>
    cases enabled with
    | true => exact run_diffPolicies tableName b a true
    | false => exact absurd rfl h
  | false =>
    cases enabled with
    | true => exact run_diffPolicies tableName b a true
    | false => exact run_diffPolicies tableName b a false

/-- The changes a diff has for one table. -/
def tableChanges (before after : RlsSnapshot) (t : String) : List RlsDiffChange :=
  ((after.tables.get? t).map fun a => diffTable before t a).getD [] ++
    ((before.tables.get? t).map fun b => diffGone after t b).getD []

theorem filter_diffRlsPolicies (before after : RlsSnapshot) (t : String) :
    (diffRlsPolicies before after).filter (fun c => c.table == t)
      = tableChanges before after t := by
  unfold diffRlsPolicies tableChanges
  rw [filter_append,
    filter_flatMap_table after.tables.nodup (fun _ _ hc => table_of_mem_diffTable hc),
    filter_flatMap_table before.tables.nodup (fun _ _ hc => table_of_mem_diffGone hc)]
  rfl

/-- The changes of a table turn its state into that of `after` exactly
when nothing keeps them from it. -/
theorem run_tableChanges_iff (before after : RlsSnapshot) (t : String) :
    (tableChanges before after t).foldlM applyToTable (rlsStateOf before t)
        = some (rlsStateOf after t) ↔
      DiffClean t (before.tables.get? t) (after.tables.get? t) := by
  unfold tableChanges rlsStateOf
  cases ha : after.tables.get? t with
  | some a =>
    -- a table that is still there is compared once
    have hgone : ((before.tables.get? t).map fun b => diffGone after t b).getD [] = [] := by
      cases before.tables.get? t with
      | none => rfl
      | some b =>
        show diffGone after t b = []
        rw [diffGone, if_pos (by rw [hasTable, ha]; rfl)]
    rw [hgone, append_nil]
    show (diffTable before t a).foldlM applyToTable _ = _ ↔ _
    unfold diffTable
    cases hb : before.tables.get? t with
    | none =>
      refine iff_of_true ?_ trivial
      exact policies_kept t [] a.policies (by simp)
    | some b =>
      show (if b.rlsEnabled && !a.rlsEnabled then _ else _ : List RlsDiffChange).foldlM
        applyToTable (.ofSnapshot (some b)) = some (.ofSnapshot (some a)) ↔
          (b.rlsEnabled = true → a.rlsEnabled = false → _)
      by_cases hoff : (b.rlsEnabled && !a.rlsEnabled) = true
      · -- RLS goes off: the policies of `after` are not created
        obtain ⟨hbOn, haOff⟩ := Bool.and_eq_true_iff.mp hoff
        rw [Bool.not_eq_true'] at haOff
        have hstate : (TableRls.ofSnapshot (some a) = ⟨false, fun _ => none⟩) ↔
            a.policies = [] := by
          rw [← byName_eq_empty]
          constructor
          · exact fun h => congrArg TableRls.policies h
          · exact fun h => TableRls.ext haOff h
        rw [if_pos hoff]
        refine (run_dropAll t b _).trans ?_
        rw [hstate, and_comm]
        exact ⟨fun h _ _ => h, fun h => h hbOn haOff⟩
      · rw [if_neg hoff]
        refine iff_of_true (policies_kept t b.policies a.policies hoff) fun hbOn haOff => ?_
        exact absurd (by rw [hbOn, haOff]; rfl) hoff
  | none =>
    cases hb : before.tables.get? t with
    | none => exact iff_of_true rfl trivial
    | some b =>
      show (diffGone after t b).foldlM applyToTable (.ofSnapshot (some b))
        = some ⟨false, fun _ => none⟩ ↔ (if b.rlsEnabled then _ else _)
      have hkept : TableRls.ofSnapshot (some b) = ⟨false, fun _ => none⟩ ↔
          b.rlsEnabled = false ∧ b.policies = [] := by
        rw [← byName_eq_empty]
        constructor
        · exact fun h => ⟨congrArg TableRls.enabled h, congrArg TableRls.policies h⟩
        · exact fun h => TableRls.ext h.1 h.2
      have hhas : hasTable after t = objectPrototypeKeys.contains t := by
        rw [hasTable, ha]
        rfl
      unfold diffGone
      rw [hhas]
      cases hinherited : objectPrototypeKeys.contains t with
      | true =>
        show some (TableRls.ofSnapshot (some b)) = some _ ↔ _
        rw [some_inj, hkept]
        cases b.rlsEnabled <;> simp
      | false =>
        rw [if_neg (by decide)]
        cases hOn : b.rlsEnabled with
        | true =>
          refine (run_dropAll t b _).trans ?_
          simp
        | false =>
          show some (TableRls.ofSnapshot (some b)) = some _ ↔ _
          rw [some_inj, hkept, hOn]
          simp

/-- The changes turn `before` into `after` exactly when every table is
free of what goes wrong. -/
theorem diffRlsPolicies_applies_iff (before after : RlsSnapshot) :
    applyChanges (rlsStateOf before) (diffRlsPolicies before after) = some (rlsStateOf after) ↔
      ∀ t, DiffClean t (before.tables.get? t) (after.tables.get? t) := by
  rw [applyChanges_iff]
  refine forall_congr' fun t => ?_
  rw [filter_diffRlsPolicies, run_tableChanges_iff]

/-! ### Disabling RLS -/

def ownerPolicy : RlsPolicy := ⟨"owner", .all, "user_id = current_user_id()", none⟩

def tasksSnapshot (t : RlsTablePolicies) : RlsSnapshot := ⟨.ofList [("tasks", t)]⟩

/-- RLS goes off while `after` still lists the policy: the policy is
dropped and not created again. -/
theorem policy_lost :
    applyChanges (rlsStateOf (tasksSnapshot ⟨true, [ownerPolicy]⟩))
        (diffRlsPolicies (tasksSnapshot ⟨true, [ownerPolicy]⟩)
          (tasksSnapshot ⟨false, [ownerPolicy]⟩))
      ≠ some (rlsStateOf (tasksSnapshot ⟨false, [ownerPolicy]⟩)) := by
  intro h
  rw [diffRlsPolicies_applies_iff] at h
  have htasks := h "tasks" rfl rfl
  cases htasks.1

end Vertz.Proofs
