import Mathlib.Data.Fintype.EquivFin
import Mathlib.Data.List.Pairwise
import Vertz.Spec.PropsMeaning

/-!
# `Vertz.Proofs.PropsMeaning`: when rewritten props keep their meaning

The walker visits the tree that JavaScript scopes, so both see the same
identifiers in the same order (`occurrences_visit`). What is left is one
identifier: whether it is rewritten is whether it resolves to a binding,
and what is written there gives the bound value.

That the condition is needed is shown on calls where every expression but
literals throws: the only values left are literals and the objects that
the rewriting itself brings in.
-/

namespace Vertz.Proofs.PropsMeaning

open Vertz.Native.Compiler.BindingPattern
open Option hiding any_eq_false mem_map
open Vertz.Native.Compiler
open Vertz.Native.Compiler.Component (isShadowed)
open List

variable {α ρ σ : Type}

/-! ## The walker keeps the scopes -/

section Visit

variable (known : Name → Bool) (f : List (List Name) → Role → Name → σ)

@[simp] theorem names_visit : ∀ (p : BindingPattern α ρ) (shadowed : List (List Name)),
    (p.visit known f shadowed).names = p.names
  | .empty, _ => by simp only [visit, names]
  | .seq first second, shadowed => by
      simp only [visit, names, names_visit first,
        names_visit second]
  | .group parts, shadowed => by
      simp only [visit, names, names_visit parts]
  | .identifier _ _, _ => by simp only [visit, names]
  | .computed _ value, shadowed => by
      simp only [visit, names, names_visit value]
  | .assignment left _, shadowed => by
      simp only [visit, names, names_visit left]

@[simp] theorem lexicalNames_visit : ∀ (t : Ast α ρ) (shadowed : List (List Name)),
    (t.visit known f shadowed).lexicalNames = t.lexicalNames
  | .seq first second, shadowed => by
      simp only [Ast.visit, Ast.lexicalNames, lexicalNames_visit first,
        lexicalNames_visit second]
  | .declaration kind _ _, _ => by cases kind <;> simp [Ast.visit, Ast.lexicalNames]
  | .declarator kind _ _, _ => by cases kind <;> simp [Ast.visit, Ast.lexicalNames]
  | .empty, _ | .literal _, _ | .identifier _ _ _, _ | .parens _, _ | .coalesce _ _, _
  | .compound _ _, _ | .function _ _ _ _, _ | .functionDeclaration _ _ _, _
  | .classDeclaration _ _, _ | .staticBlock _, _ | .block _, _ | .catchClause _ _, _ => by
      simp only [Ast.visit, Ast.lexicalNames]

@[simp] theorem functionNames_visit : ∀ (t : Ast α ρ) (shadowed : List (List Name)),
    (t.visit known f shadowed).functionNames = t.functionNames
  | .seq first second, shadowed => by
      simp only [Ast.visit, Ast.functionNames, functionNames_visit first,
        functionNames_visit second]
  | .empty, _ | .literal _, _ | .identifier _ _ _, _ | .parens _, _ | .coalesce _ _, _
  | .compound _ _, _ | .declaration _ _ _, _ | .declarator _ _ _, _ | .function _ _ _ _, _
  | .functionDeclaration _ _ _, _ | .classDeclaration _ _, _ | .staticBlock _, _ | .block _, _
  | .catchClause _ _, _ => by simp only [Ast.visit, Ast.functionNames]

@[simp] theorem varNames_visit : ∀ (t : Ast α ρ) (shadowed : List (List Name)),
    (t.visit known f shadowed).varNames = t.varNames
  | .seq first second, shadowed => by
      simp only [Ast.visit, Ast.varNames, varNames_visit first, varNames_visit second]
  | .compound _ parts, shadowed => by simp only [Ast.visit, Ast.varNames, varNames_visit parts]
  | .block body, shadowed => by simp only [Ast.visit, Ast.varNames, varNames_visit body]
  | .catchClause _ body, shadowed => by
      simp only [Ast.visit, Ast.varNames, varNames_visit body]
  | .declaration kind _ _, _ => by cases kind <;> simp [Ast.visit, Ast.varNames]
  | .declarator kind _ _, _ => by cases kind <;> simp [Ast.visit, Ast.varNames]
  | .empty, _ | .literal _, _ | .identifier _ _ _, _ | .parens _, _ | .coalesce _ _, _
  | .function _ _ _ _, _ | .functionDeclaration _ _ _, _ | .classDeclaration _ _, _
  | .staticBlock _, _ => by simp only [Ast.visit, Ast.varNames]

@[simp] theorem blockScope_visit (t : Ast α ρ) (shadowed : List (List Name)) :
    (t.visit known f shadowed).blockScope = t.blockScope := by
  simp only [Ast.blockScope, lexicalNames_visit, functionNames_visit]

@[simp] theorem functionScope_visit (t : Ast α ρ) (shadowed : List (List Name)) :
    (t.visit known f shadowed).functionScope = t.functionScope := by
  simp only [Ast.functionScope, blockScope_visit, varNames_visit]

/-- What is done at an identifier, from the shadows seen there. -/
def marked (o : Occurrence (List (List Name))) : Occurrence σ :=
  { o with mark := f o.mark o.role o.name }

/-- The walker that records the shadows it sees. -/
def seeing (shadowed : List (List Name)) (_ : Role) (_ : Name) : List (List Name) := shadowed

mutual

theorem occurrences_visit : ∀ (t : Ast α ρ) (shadowed : List (List Name)) (inner : List Name),
    (t.visit known f shadowed).occurrences inner =
      ((t.visit known seeing shadowed).occurrences inner).map (marked f)
  | .empty, _, _ | .literal _, _, _ | .identifier _ _ _, _, _ => by
      simp [Ast.visit, Ast.occurrences, marked, seeing]
  | .seq first second, shadowed, inner => by
      simp only [Ast.visit, Ast.occurrences, map_append,
        occurrences_visit first, occurrences_visit second]
  | .coalesce left right, shadowed, inner => by
      simp only [Ast.visit, Ast.occurrences, map_append,
        occurrences_visit left, occurrences_visit right]
  | .parens e, shadowed, inner => by
      simp only [Ast.visit, Ast.occurrences, occurrences_visit e]
  | .compound _ parts, shadowed, inner => by
      simp only [Ast.visit, Ast.occurrences, occurrences_visit parts]
  | .declaration _ iterates id, shadowed, inner => by
      cases iterates <;> simp [Ast.visit, Ast.occurrences, occurrences_visit_pattern id]
  | .declarator _ id init, shadowed, inner => by
      simp only [Ast.visit, Ast.occurrences, map_append,
        occurrences_visit_pattern id, occurrences_visit init]
  | .function _ _ params body, shadowed, inner => by
      simp only [Ast.visit, Ast.occurrences, map_append, names_visit, functionScope_visit,
        occurrences_visit_pattern params, occurrences_visit body]
  | .functionDeclaration _ params body, shadowed, inner => by
      simp only [Ast.visit, Ast.occurrences, map_append, names_visit, functionScope_visit,
        occurrences_visit_pattern params, occurrences_visit body]
  | .classDeclaration _ body, shadowed, inner => by
      simp only [Ast.visit, Ast.occurrences, occurrences_visit body]
  | .staticBlock body, shadowed, inner => by
      simp only [Ast.visit, Ast.occurrences, functionScope_visit, occurrences_visit body]
  | .block body, shadowed, inner => by
      simp only [Ast.visit, Ast.occurrences, blockScope_visit, occurrences_visit body]
  | .catchClause param body, shadowed, inner => by
      simp only [Ast.visit, Ast.occurrences, map_append, names_visit,
        occurrences_visit_pattern param, occurrences_visit body]

theorem occurrences_visit_pattern :
    ∀ (p : BindingPattern α ρ) (shadowed : List (List Name)) (inner : List Name),
    (p.visit known f shadowed).occurrences inner =
      ((p.visit known seeing shadowed).occurrences inner).map (marked f)
  | .empty, _, _ | .identifier _ _, _, _ => by
      simp [visit, occurrences, marked, seeing]
  | .seq first second, shadowed, inner => by
      simp only [visit, occurrences, map_append,
        occurrences_visit_pattern first, occurrences_visit_pattern second]
  | .group parts, shadowed, inner => by
      simp only [visit, occurrences,
        occurrences_visit_pattern parts]
  | .computed key value, shadowed, inner => by
      simp only [visit, occurrences, map_append,
        occurrences_visit key, occurrences_visit_pattern value]
  | .assignment left right, shadowed, inner => by
      simp only [visit, occurrences, map_append,
        occurrences_visit_pattern left, occurrences_visit right]

end

end Visit

/-! ## Bindings -/

theorem names_of_flat {p : BindingPattern α Unit} {name : Name} {default : Option (Ast α Unit)}
    (h : p.flat? = some (name, default)) : p.names = [name] := by
  unfold flat? at h
  split at h
  · simp only [Option.some.injEq, Prod.mk.injEq] at h
    simp [names, h.1]
  · simp only [Option.some.injEq, Prod.mk.injEq] at h
    simp [names, h.1]
  · cases h

theorem not_nested_of_flat {p : BindingPattern α Unit} (h : (p.flat?).isSome) :
    p.isNested = false := by
  cases p <;> simp_all [flat?, isNested]

section Component

variable {c : Component α}

theorem mem_bindings {b : PropBinding α} :
    b ∈ c.bindings ↔ ∃ p ∈ c.properties, p.1 = .staticIdentifier b.propName ∧
      p.2.flat? = some (b.bindingName, b.defaultValue) := by
  rw [Component.bindings, mem_filterMap]
  refine exists_congr fun p => and_congr_right fun _ => ?_
  cases hkey : p.1 with
  | staticIdentifier name =>
    cases hflat : p.2.flat? with
    | none => simp [PropertyKey.extractPropKeyName]
    | some pair =>
      obtain ⟨x, d⟩ := pair
      simp only [PropertyKey.extractPropKeyName, Option.some.injEq,
        PropertyKey.staticIdentifier.injEq, Prod.mk.injEq]
      constructor
      · rintro rfl
        exact ⟨rfl, rfl, rfl⟩
      · rintro ⟨rfl, rfl, rfl⟩
        rfl
  | literal name => simp [PropertyKey.extractPropKeyName]
  | computed key => simp [PropertyKey.extractPropKeyName]

theorem nodup_locals (c : Component α) : c.locals.Nodup :=
  (nodup_append.mp (nodup_append.mp c.distinct).1).1

theorem property_unique {p q : PropertyKey α × BindingPattern α Unit} (hp : p ∈ c.properties)
    (hq : q ∈ c.properties) {name : Name} (hpname : name ∈ p.2.names)
    (hqname : name ∈ q.2.names) : p = q := by
  by_contra hne
  have hdisjoint := (nodup_flatMap.mp (nodup_locals c)).2
  have hsymm : Std.Symm (Function.onFun List.Disjoint
      fun p : PropertyKey α × BindingPattern α Unit => p.2.names) :=
    ⟨fun _ _ h => List.Disjoint.symm h⟩
  exact hdisjoint.forall hp hq hne hpname hqname

theorem binding_eq_some {b : PropBinding α} {name : Name} :
    c.binding? name = some b ↔ b ∈ c.bindings ∧ b.bindingName = name := by
  constructor
  · intro h
    exact ⟨mem_of_find?_eq_some h, by simpa using find?_some h⟩
  · rintro ⟨hb, rfl⟩
    cases hfind : c.binding? b.bindingName with
    | none =>
      have := find?_eq_none.mp hfind b hb
      simp at this
    | some b' =>
      -- two bindings of one name come from one property
      have hb' : b' ∈ c.bindings := mem_of_find?_eq_some hfind
      have hname : b'.bindingName = b.bindingName := by simpa using find?_some hfind
      obtain ⟨p, hp, hkey, hflat⟩ := mem_bindings.mp hb
      obtain ⟨q, hq, hkey', hflat'⟩ := mem_bindings.mp hb'
      have hpq : p = q := @property_unique _ _ _ _ hp hq b.bindingName
        (by simp [names_of_flat hflat]) (by simp [names_of_flat hflat', hname])
      subst hpq
      rw [hkey, PropertyKey.staticIdentifier.injEq] at hkey'
      rw [hflat, Option.some.injEq, Prod.mk.injEq] at hflat'
      cases b
      cases b'
      simp_all

theorem not_other_of_mem_bindingNames {name : Name} (h : name ∈ c.bindingNames) :
    name ∉ c.others.names :=
  fun hother => (nodup_append.mp c.distinct).2.2 name h name hother rfl

/-! ## Destructuring -/

variable {run : Run α}

variable {p : PropertyKey α × BindingPattern α Unit}

theorem bindProperty_eq_some {acc acc' : Bound α} :
    c.bindProperty run acc p = some acc' ↔ ∃ name default value, p.2.flat? = some (name, default) ∧
      withDefault run.host (c.entryScope run.outer acc.values) default
        (run.props.get (p.1.value run.host (c.entryScope run.outer acc.values))) = some value ∧
      acc' = ⟨acc.keys ++ [p.1.value run.host (c.entryScope run.outer acc.values)],
        acc.values ++ [(name, value)]⟩ := by
  simp only [Component.bindProperty, Option.bind_eq_bind, Option.bind_eq_some_iff, Option.pure_def,
    Option.some.injEq, Prod.exists]
  grind

variable {acc result : Bound α}

theorem foldlM_cons {rest : List (PropertyKey α × BindingPattern α Unit)} :
    (p :: rest).foldlM (c.bindProperty run) acc = some result ↔
      ∃ acc', c.bindProperty run acc p = some acc' ∧
        rest.foldlM (c.bindProperty run) acc' = some result := by
  rw [List.foldlM_cons, bind_eq_bind, bind_eq_some_iff]

variable {l : List (PropertyKey α × BindingPattern α Unit)}

theorem values_prefix (h : l.foldlM (c.bindProperty run) acc = some result) :
    ∃ more, result.values = acc.values ++ more := by
  induction l generalizing acc with
  | nil =>
    rw [foldlM_nil, Option.pure_def, Option.some.injEq] at h
    exact ⟨[], by simp [h]⟩
  | cons p rest ih =>
    obtain ⟨acc', hp, hrest⟩ := foldlM_cons.mp h
    obtain ⟨name, default, value, _, _, rfl⟩ := bindProperty_eq_some.mp hp
    obtain ⟨more, hmore⟩ := ih hrest
    exact ⟨(name, value) :: more, by simpa using hmore⟩

/-- Destructuring binds the property's value, or its default for
`undefined`. -/
theorem lookup_foldlM (h : l.foldlM (c.bindProperty run) acc = some result)
    (hnodup : (acc.values.map Prod.fst ++ l.flatMap (fun p => p.2.names)).Nodup) (hp : p ∈ l)
    {name : Name} {default : Option (Ast α Unit)} (hflat : p.2.flat? = some (name, default)) :
    ∃ env value, withDefault run.host env default (run.props.get (p.1.value run.host env)) =
      some value ∧ result.values.lookup name = some value := by
  induction l generalizing acc with
  | nil => cases hp
  | cons q rest ih =>
    obtain ⟨acc', hq, hrest⟩ := foldlM_cons.mp h
    obtain ⟨x, d, value, hx, hvalue, rfl⟩ := bindProperty_eq_some.mp hq
    rw [flatMap_cons, names_of_flat hx] at hnodup
    rcases mem_cons.mp hp with rfl | hp
    · rw [hx, Option.some.injEq, Prod.mk.injEq] at hflat
      obtain ⟨rfl, rfl⟩ := hflat
      obtain ⟨more, hmore⟩ := values_prefix hrest
      refine ⟨_, value, hvalue, ?_⟩
      have hfresh : x ∉ acc.values.map Prod.fst := by
        intro hmem
        exact (nodup_append.mp hnodup).2.2 x hmem x (by simp) rfl
      rw [hmore, append_assoc, lookup_append, lookup_eq_none_iff.mpr]
      · simp
      · intro pair hpair
        simpa using fun heq : x = pair.1 => hfresh (heq ▸ mem_map_of_mem hpair)
    · exact ih hrest (by simpa using hnodup) hp

theorem lookup_bound {result : Bound α} (h : c.bound run = some result) (hp : p ∈ c.properties)
    {name : Name} {default : Option (Ast α Unit)} (hflat : p.2.flat? = some (name, default)) :
    ∃ env value, withDefault run.host env default (run.props.get (p.1.value run.host env)) =
      some value ∧ result.values.lookup name = some value :=
  lookup_foldlM h (by simpa [Component.locals] using nodup_locals c) hp hflat

/-- The keys that are read, where these do not depend on variables. -/
theorem keys_foldlM (h : l.foldlM (c.bindProperty run) acc = some result)
    (keyOf : PropertyKey α → Name) (hkey : ∀ p ∈ l, ∀ env, p.1.value run.host env = keyOf p.1) :
    result.keys = acc.keys ++ l.map (fun p => keyOf p.1) := by
  induction l generalizing acc with
  | nil =>
    rw [foldlM_nil, Option.pure_def, Option.some.injEq] at h
    simp [h]
  | cons q rest ih =>
    obtain ⟨acc', hq, hrest⟩ := foldlM_cons.mp h
    obtain ⟨x, d, value, hx, hvalue, rfl⟩ := bindProperty_eq_some.mp hq
    rw [ih hrest fun p hp => hkey p (mem_cons_of_mem _ hp), hkey q mem_cons_self]
    simp

/-- Destructuring succeeds where every property has a value. -/
theorem bound_of_defined (hflat : c.Flat) (hget : ∀ key, (run.props.get key).isUndefined = false) :
    ∃ result, c.bound run = some result := by
  have hfold : ∀ (l : List (PropertyKey α × BindingPattern α Unit)) (acc : Bound α),
      (∀ p ∈ l, (p.2.flat?).isSome) →
      ∃ result, l.foldlM (c.bindProperty run) acc = some result := by
    intro l
    induction l with
    | nil => exact fun acc _ => ⟨acc, rfl⟩
    | cons p rest ih =>
      intro acc h
      obtain ⟨⟨name, default⟩, hp⟩ := isSome_iff_exists.mp (h p mem_cons_self)
      have hvalue : ∀ env key, withDefault run.host env default (run.props.get key) =
          some (run.props.get key) := by
        intro env key
        cases default with
        | none => rfl
        | some d => rw [withDefault, hget]; rfl
      have hstep : ∃ acc', c.bindProperty run acc p = some acc' :=
        ⟨_, bindProperty_eq_some.mpr ⟨name, default, _, hp, hvalue _ _, rfl⟩⟩
      obtain ⟨acc', hacc'⟩ := hstep
      obtain ⟨result, hresult⟩ := ih acc' fun q hq => h q (mem_cons_of_mem _ hq)
      exact ⟨result, foldlM_cons.mpr ⟨acc', hacc', hresult⟩⟩
  exact hfold c.properties ⟨[], []⟩ hflat

end Component

/-! ## Constant defaults -/

section Constant

variable (host : Host α) (env : Env α)

def literalValue : Option α → Value α
  | none => .null
  | some a => .primitive a

theorem orElse_eq_some {value other : Option (Value α)} {w : Value α} :
    orElse value other = some w ↔
      (∃ v, value = some v ∧ v.isNullish = true ∧ other = some w) ∨
      (value = some w ∧ w.isNullish = false) := by
  cases value with
  | none => simp [orElse]
  | some v => cases hv : v.isNullish <;> simp [orElse, hv] <;> grind

theorem orElse_assoc (a b c : Option (Value α)) :
    orElse (orElse a b) c = orElse a (orElse b c) := by
  cases a with
  | none => rfl
  | some v => cases hv : v.isNullish <;> simp [orElse, hv]

theorem evaluate_constant : ∀ (e : Ast α Unit) {literal : Option α},
    e.constant = some literal → evaluate host env e = some (literalValue literal)
  | .literal none, _, h => by cases h; rfl
  | .literal (some _), _, h => by cases h; rfl
  | .parens e, _, h => evaluate_constant e h
  | .coalesce left right, literal, h => by
      rw [Ast.constant] at h
      split at h
      · -- `null ?? right`
        rename_i hleft
        rw [evaluate, evaluate_constant left hleft, evaluate_constant right h]
        rfl
      · rename_i hleft
        rw [evaluate, evaluate_constant left h]
        cases literal with
        | none => exact absurd h hleft
        | some a => rfl

/-- A constant default is the whole right operand of `??`. -/
theorem evaluateAfter_constant (value : Value α) : ∀ (e : Ast α Unit), e.constant ≠ none →
    evaluateAfter host env value e = orElse (some value) (evaluate host env e)
  | .literal _, _ => rfl
  | .parens _, _ => rfl
  | .coalesce left right, h => by
      have hleft : left.constant ≠ none := by
        intro hnone
        simp [Ast.constant, hnone] at h
      rw [evaluateAfter, evaluateAfter_constant value left hleft, orElse_assoc]
      rfl

/-- Every variable holds nothing or an object that `IsNew` knows. -/
def OnlyNew (IsNew : Value α → Prop) : Prop := ∀ name value, env name = some value → IsNew value

/-- A host in which every other expression throws. -/
def throwing (key : Name) : Host α :=
  ⟨fun _ _ => none, fun _ _ _ => none, fun _ _ => key, fun _ _ => none⟩

variable {host env} {key : Name} {IsNew : Value α → Prop}

theorem evaluate_throwing (henv : OnlyNew env IsNew)
    (hnew : ∀ v, IsNew v → v.isNullish = false) : ∀ (e : Ast α Unit) {value : Value α},
    evaluate (throwing key) env e = some value →
      IsNew value ∨ ∃ literal, e.constant = some literal ∧ value = literalValue literal
  | .literal none, _, h => by
      cases h
      exact Or.inr ⟨none, rfl, rfl⟩
  | .literal (some a), _, h => by
      cases h
      exact Or.inr ⟨some a, rfl, rfl⟩
  | .identifier .read name _, value, h => Or.inl (henv name value h)
  | .parens e, _, h => evaluate_throwing henv hnew e h
  | .coalesce left right, value, h => by
      rcases orElse_eq_some.mp h with ⟨v, hleft, hv, hright⟩ | ⟨hleft, hv⟩
      · rcases evaluate_throwing henv hnew left hleft with hisNew | ⟨literal, hconst, rfl⟩
        · rw [hnew v hisNew] at hv
          cases hv
        · cases literal with
          | some a => cases hv
          | none =>
            have hsame : (Ast.coalesce left right).constant = right.constant := by
              rw [Ast.constant, hconst]
            rw [hsame]
            exact evaluate_throwing henv hnew right hright
      · rcases evaluate_throwing henv hnew left hleft with hisNew | ⟨literal, hconst, rfl⟩
        · exact Or.inl hisNew
        · cases literal with
          | none => cases hv
          | some a => exact Or.inr ⟨some a, by rw [Ast.constant, hconst], rfl⟩

theorem evaluateAfter_throwing (henv : OnlyNew env IsNew)
    (hnew : ∀ v, IsNew v → v.isNullish = false) : ∀ (e : Ast α Unit) {value : Value α},
    evaluateAfter (throwing key) env .null e = some value →
      IsNew value ∨ ∃ literal, value = literalValue literal
  | .coalesce first second, value, h => by
      rcases orElse_eq_some.mp h with ⟨v, hfirst, _, hsecond⟩ | ⟨hfirst, _⟩
      · rcases evaluate_throwing henv hnew second hsecond with hisNew | ⟨literal, _, hliteral⟩
        · exact Or.inl hisNew
        · exact Or.inr ⟨literal, hliteral⟩
      · exact evaluateAfter_throwing henv hnew first hfirst
  | .literal none, _, h => by
      cases h
      exact Or.inr ⟨none, rfl⟩
  | .literal (some a), _, h => by
      cases h
      exact Or.inr ⟨some a, rfl⟩
  | .identifier .read name _, value, h => Or.inl (henv name value h)
  | .parens e, value, h => by
      rcases evaluate_throwing henv hnew e h with hisNew | ⟨literal, _, hliteral⟩
      · exact Or.inl hisNew
      · exact Or.inr ⟨literal, hliteral⟩
  | .compound grouping _, _, h => by cases grouping <;> cases h
  | .function arrow _ _ _, _, h => by cases arrow <;> cases h

/-- If the text `left ?? default` gives `left` where it is not nullish and
`null` where it is `null`, the default is `null`. -/
theorem constant_of_evaluateAfter {env env' : Env α} {IsNew IsNew' : Value α → Prop}
    {value : Value α} (henv : OnlyNew env IsNew) (henv' : OnlyNew env' IsNew')
    (hnew : ∀ v, IsNew v → v.isNullish = false) (hnew' : ∀ v, IsNew' v → v.isNullish = false)
    (hvalue : ¬ IsNew value) (hobject : ∀ literal, value ≠ literalValue literal) :
    ∀ (e : Ast α Unit), evaluateAfter (throwing key) env value e = some value →
      evaluateAfter (throwing key) env' .null e = some .null → e.constant = some none
  | .coalesce first second, h, h' => by
      -- the right operand cannot give `value`, so the left one does
      have hfirst : evaluateAfter (throwing key) env value first = some value := by
        rcases orElse_eq_some.mp h with ⟨_, _, _, hsecond⟩ | ⟨hfirst, _⟩
        · rcases evaluate_throwing henv hnew second hsecond with hisNew | ⟨literal, _, hliteral⟩
          · exact absurd hisNew hvalue
          · exact absurd hliteral (hobject literal)
        · exact hfirst
      rcases orElse_eq_some.mp h' with ⟨v, hfirst', hv, hsecond'⟩ | ⟨_, hnull⟩
      · have hvnull : v = .null := by
          rcases evaluateAfter_throwing henv' hnew' first hfirst' with hisNew | ⟨literal, rfl⟩
          · rw [hnew' v hisNew] at hv
            cases hv
          · cases literal with
            | none => rfl
            | some a => cases hv
        subst hvnull
        have hconst := constant_of_evaluateAfter henv henv' hnew hnew' hvalue hobject first
          hfirst hfirst'
        rcases evaluate_throwing henv' hnew' second hsecond' with hisNew | ⟨literal, hc, hliteral⟩
        · exact absurd (hnew' _ hisNew) (by simp [Value.isNullish])
        · cases literal with
          | none => rw [Ast.constant, hconst, hc]
          | some a => cases hliteral
      · cases hnull
  | .literal none, _, _ => rfl
  | .literal (some a), _, h' => by cases h'
  | .identifier .read name _, _, h' =>
    absurd (hnew' _ (henv' name _ h')) (by simp [Value.isNullish])
  | .parens e, _, h' => by
      rcases evaluate_throwing henv' hnew' e h' with hisNew | ⟨literal, hc, hliteral⟩
      · exact absurd (hnew' _ hisNew) (by simp [Value.isNullish])
      · cases literal with
        | none => exact hc
        | some a => cases hliteral
  | .compound grouping _, _, h' => by cases grouping <;> cases h'
  | .function arrow _ _ _, _, h' => by cases arrow <;> cases h'

end Constant

/-! ## One identifier -/

section Identifier

variable {c : Component α} {shadowed : List (List Name)} {role : Role} {name : Name}

theorem replacement_eq_some {b : PropBinding α} :
    c.replacement? shadowed role name = some b ↔ role ≠ .binding ∧
      isShadowed shadowed name = false ∧ b ∈ c.bindings ∧ b.bindingName = name := by
  rw [Component.replacement?, ← binding_eq_some]
  split
  · rename_i h
    simp only [reduceCtorEq, false_iff]
    rintro ⟨hrole, hshadow, _⟩
    rcases h with h | h
    · exact hrole h
    · rw [hshadow] at h
      cases h
  · rename_i h
    rw [not_or, Bool.not_eq_true] at h
    exact ⟨fun hb => ⟨h.1, h.2, hb⟩, fun hb => hb.2.2⟩

theorem replacement_eq_none :
    c.replacement? shadowed role name = none ↔
      (role ≠ .binding → (c.binding? name).isSome → isShadowed shadowed name = true) := by
  rw [Component.replacement?]
  split
  · rename_i h
    simp only [true_iff]
    intro hrole _
    exact h.resolve_left hrole
  · rename_i h
    rw [not_or, Bool.not_eq_true] at h
    rw [h.2, ← not_isSome_iff_eq_none]
    exact ⟨fun hnone _ hsome => absurd hsome hnone, fun himp hsome => nomatch himp h.1 hsome⟩

theorem scope_props {run : Run α} {declared inner : List Name} {rest : Option (Name × Value α)}
    (h : "__props" ∉ inner ++ declared) (hrest : rest.map Prod.fst ≠ some "__props") :
    rewrittenScope run declared rest inner "__props" = some (.object run.props.get) := by
  rw [mem_append] at h
  rw [rewrittenScope, if_neg h, if_neg hrest, if_pos rfl]

theorem evaluate_props {host : Host α} {env : Env α} {get : Name → Value α}
    (henv : env "__props" = some (.object get)) (b : PropBinding α) :
    b.evaluate host env =
      match b.defaultValue with
      | none => some (get b.propName)
      | some default => evaluateAfter host env (get b.propName) default := by
  rw [PropBinding.evaluate, henv]
  rfl

/-- The read of a binding with no default but `null` gives what
destructuring binds. -/
theorem evaluate_binding {run : Run α} {result : Bound α} (hbound : c.bound run = some result)
    {b : PropBinding α} (hb : b ∈ c.bindings)
    (hdefault : ∀ default, b.defaultValue = some default → default.constant = some none)
    {env : Env α} (henv : env "__props" = some (.object run.props.get)) :
    b.evaluate run.host env = result.values.lookup b.bindingName := by
  obtain ⟨p, hp, hkey, hflat⟩ := mem_bindings.mp hb
  obtain ⟨entry, value, hvalue, hlookup⟩ := lookup_bound hbound hp hflat
  rw [hkey] at hvalue
  have hvalue : withDefault run.host entry b.defaultValue (run.props.get b.propName) =
      some value := hvalue
  rw [hlookup, ← hvalue, evaluate_props henv]
  cases hd : b.defaultValue with
  | none => rfl
  | some default =>
    have hconst := hdefault default hd
    show evaluateAfter run.host env (run.props.get b.propName) default = _
    rw [evaluateAfter_constant _ _ _ _ (by simp [hconst]), evaluate_constant _ _ _ hconst,
      withDefault, evaluate_constant _ _ _ hconst]
    cases run.props.get b.propName <;> rfl

end Identifier

/-! ## Calls in which everything else throws -/

section Throwing

variable {c : Component α} {value : Value α} {own : List Name} {key : Name}

def throwingRun (own : List Name) (value : Value α) (key : Name) : Run α :=
  ⟨throwing key, ⟨own, fun _ => value⟩, fun _ => none, fun _ => none⟩

theorem bound_throwing (hflat : c.Flat) (hvalue : value.isUndefined = false) :
    ∃ result, c.bound (throwingRun own value key) = some result ∧
      (∀ name ∈ c.locals, result.values.lookup name = some value) ∧
      result.keys = c.properties.map (fun p => p.1.static?.getD key) := by
  obtain ⟨result, hresult⟩ : ∃ result, c.bound (throwingRun own value key) = some result :=
    bound_of_defined hflat fun _ => hvalue
  refine ⟨result, hresult, ?_, ?_⟩
  · intro name hname
    obtain ⟨p, hp, hname⟩ := mem_flatMap.mp hname
    obtain ⟨⟨x, default⟩, hpflat⟩ := isSome_iff_exists.mp (hflat p hp)
    rw [names_of_flat hpflat, mem_singleton] at hname
    subst hname
    obtain ⟨env, w, hw, hlookup⟩ := lookup_bound hresult hp hpflat
    have hsame : some value = some w := by
      rw [← hw]
      cases default with
      | none => rfl
      | some d =>
        show some value = if value.isUndefined then _ else some value
        rw [hvalue]
        rfl
    rw [hlookup, hsame]
  · have hkeys := keys_foldlM hresult (fun k => k.static?.getD key) (by
      intro p _ env
      cases p.1 <;> rfl)
    simpa using hkeys

/-- The objects that the rewriting brings in. -/
def IsNew (value : Value α) (w : Value α) : Prop :=
  w = .object (fun _ => value) ∨ w = .object (fun _ => .undefined)

theorem isNew_not_nullish (w : Value α) (h : IsNew value w) : w.isNullish = false := by
  rcases h with rfl | rfl <;> rfl

theorem onlyNew_scope {declared inner keys : List Name} {rest : Option Name} :
    OnlyNew (rewrittenScope (throwingRun [] value key) declared
      (rest.map fun r => (r, (throwingRun [] value key).props.restObject keys)) inner)
      (IsNew value) := by
  intro name w h
  rw [rewrittenScope] at h
  split at h
  · cases h
  · split at h
    · cases rest with
      | none => cases h
      | some r =>
        cases h
        exact Or.inr rfl
    · split at h
      · cases h
        exact Or.inl rfl
      · cases h

end Throwing

/-! ## The component -/

section Main

variable {c : Component α}

def rewritten (c : Component α) : Transformed α :=
  ⟨c.body.visit (fun name => (c.binding? name).isSome) c.replacement? c.bodyShadow,
    c.restStatement⟩

theorem transformProps_eq_some (hflat : c.Flat) {out : Transformed α} :
    transformProps c = some out ↔ c.Rewritten ∧ out = rewritten c := by
  have hnested : c.hasNestedDestructuring = false := by
    rw [Component.hasNestedDestructuring, any_eq_false]
    intro p hp
    simp [not_nested_of_flat (hflat p hp)]
  rw [transformProps, hnested, if_neg (by simp), Component.Rewritten]
  split
  · rename_i h
    simp only [List.isEmpty_iff, isNone_iff_eq_none] at h
    simp [h.1, h.2]
  · rename_i h
    have h : c.bindings ≠ [] ∨ c.rest.isSome := by
      cases hr : c.rest <;> simp_all
    rw [Option.some.injEq, eq_comm]
    exact ⟨fun heq => ⟨h, heq⟩, fun heq => heq.2⟩

theorem occurrences_rewritten :
    (rewritten c).body.occurrences [] = c.seen.map (marked c.replacement?) :=
  occurrences_visit _ _ _ _ _

theorem droppedKeys_rewritten (h : c.rest.isSome) :
    (rewritten c).droppedKeys = c.bindings.map PropBinding.propName := by
  obtain ⟨r, hr⟩ := isSome_iff_exists.mp h
  simp only [Transformed.droppedKeys, rewritten, Component.restStatement, hr, map_some,
    getD_some]
  apply ext_getElem <;> simp

theorem restVariable_rewritten (run : Run α) :
    (rewritten c).restVariable run =
      c.rest.map fun r => (r, run.props.restObject (rewritten c).droppedKeys) := by
  rw [Transformed.restVariable]
  show (c.rest.map _).map _ = _
  rw [Option.map_map]
  rfl

theorem drops_ne_nil {s : RestStatement} (hs : c.restStatement = some s) :
    s.drops ≠ [] ↔ c.bindings ≠ [] := by
  obtain ⟨r, _, rfl⟩ := map_eq_some_iff.mp hs
  simp

/-- What is in scope in the rewritten body. -/
def bodyScope (c : Component α) (run : Run α) (inner : List Name) : Env α :=
  rewrittenScope run c.declared ((rewritten c).restVariable run) inner

variable {o : Occurrence (List (List Name))}

theorem value_some {run : Run α} {b : PropBinding α}
    (hmark : c.replacement? o.mark o.role o.name = some b) :
    (rewritten c).value c run (marked c.replacement? o) =
      b.evaluate run.host (bodyScope c run o.inner) := by
  simp only [Transformed.value, marked, hmark, bodyScope]

theorem value_none {run : Run α} (hmark : c.replacement? o.mark o.role o.name = none) :
    (rewritten c).value c run (marked c.replacement? o) = bodyScope c run o.inner o.name := by
  simp only [Transformed.value, marked, hmark, bodyScope]

theorem onlyNew_bodyScope {value : Value α} {key : Name} {inner : List Name} :
    OnlyNew (bodyScope c (throwingRun [] value key) inner) (IsNew value) := by
  rw [bodyScope, restVariable_rewritten]
  exact onlyNew_scope

/-- No name that the rest statement declares is `__props`. -/
theorem restVariable_ne (h : ∀ s, c.restStatement = some s →
      ∀ name ∈ s.drops.map Prod.snd ++ [s.rest], name ≠ "__props") (run : Run α) :
    ((rewritten c).restVariable run).map Prod.fst ≠ some "__props" := by
  rw [Transformed.restVariable]
  show (c.restStatement.map _).map _ ≠ _
  cases hs : c.restStatement with
  | none => simp
  | some s => simpa using h s hs s.rest (by simp)

theorem bodyScope_props (h : ∀ s, c.restStatement = some s →
      ∀ name ∈ s.drops.map Prod.snd ++ [s.rest], name ≠ "__props") {run : Run α}
    {inner : List Name} (hinner : "__props" ∉ inner ++ c.declared) :
    bodyScope c run inner "__props" = some (.object run.props.get) :=
  scope_props hinner (restVariable_ne h run)

/-- A reference that gives the bound value on every call is a read of its
binding, and the default is `null`. -/
theorem reads_of_faithful (hflat : c.Flat) (h : (rewritten c).Faithful c) (ho : o ∈ c.seen)
    (hrole : o.role = .read ∨ o.role = .shorthand) (hresolves : c.Resolves c.locals o) :
    isShadowed o.mark o.name = false ∧ "__props" ∉ o.inner ++ c.declared ∧
      ∃ b ∈ c.bindings, b.bindingName = o.name ∧
        ∀ default, b.defaultValue = some default → default.constant = some none := by
  have hmem : marked c.replacement? o ∈ (rewritten c).body.occurrences [] := by
    rw [occurrences_rewritten]
    exact mem_map_of_mem ho
  have hgives : ∀ value : Value α, value.isUndefined = false →
      (rewritten c).value c (throwingRun [] value "") (marked c.replacement? o) = some value := by
    intro value hvalue
    obtain ⟨result, hresult, hlookup, _⟩ := bound_throwing hflat hvalue
    rw [h.reads _ hmem hrole hresolves _ _ hresult]
    exact hlookup _ hresolves.1
  cases hmark : c.replacement? o.mark o.role o.name with
  | none =>
    have hnull := hgives .null rfl
    rw [value_none hmark] at hnull
    exact absurd (isNew_not_nullish _ (onlyNew_bodyScope _ _ hnull)) (by simp [Value.isNullish])
  | some b =>
    obtain ⟨_, hshadow, hb, hname⟩ := replacement_eq_some.mp hmark
    have hprops : "__props" ∉ o.inner ++ c.declared := by
      -- a local `__props` may hold nothing yet
      intro hlocal
      have hnull := hgives .null rfl
      rw [mem_append] at hlocal
      rw [value_some hmark, PropBinding.evaluate, bodyScope, rewrittenScope,
        if_pos hlocal] at hnull
      cases hnull
    refine ⟨hshadow, hprops, b, hb, hname, fun default hdefault => ?_⟩
    have hscope : ∀ value : Value α, bodyScope c (throwingRun [] value "") o.inner "__props" =
        some (.object (throwingRun [] value "").props.get) := by
      intro value
      exact bodyScope_props
        (fun s hs name hmem => ((h.parses.rest s hs).2.2.2 name hmem).1) hprops
    have hafter : ∀ value : Value α, value.isUndefined = false →
        evaluateAfter (throwing "") (bodyScope c (throwingRun [] value "") o.inner) value
          default = some value := by
      intro value hvalue
      have hsome := hgives value hvalue
      rw [value_some hmark, evaluate_props (hscope value), hdefault] at hsome
      exact hsome
    -- an object that is neither of those the rewriting brings in
    refine constant_of_evaluateAfter onlyNew_bodyScope
      onlyNew_bodyScope isNew_not_nullish isNew_not_nullish ?_ ?_ default
      (hafter (.object fun _ => .null) rfl) (hafter .null rfl)
    · rintro (hnew | hnew)
      · have hget := congrFun (Value.object.inj hnew) ""
        cases hget
      · have hget := congrFun (Value.object.inj hnew) ""
        cases hget
    · rintro (_ | a) hliteral
      · cases hliteral
      · cases hliteral

theorem mem_remaining {props : Props α} {keys : List Name} {pair : Name × Value α} :
    pair ∈ props.remaining keys ↔
      pair.1 ∈ props.own ∧ pair.1 ∉ keys ∧ pair.2 = props.get pair.1 := by
  simp only [Props.remaining, mem_map, mem_filter, decide_eq_true_eq]
  constructor
  · rintro ⟨key, ⟨hown, hkey⟩, rfl⟩
    exact ⟨hown, hkey, rfl⟩
  · rintro ⟨hown, hkey, hget⟩
    exact ⟨pair.1, ⟨hown, hkey⟩, by rw [← hget]⟩

/-- A rest binding that always holds the same properties needs every key to
be dropped, a computed one too. -/
theorem key_of_faithful (hflat : c.Flat) (h : (rewritten c).Faithful c) (hrest : c.rest.isSome)
    {p : PropertyKey α × BindingPattern α Unit} (hp : p ∈ c.properties) :
    ∃ key, p.1.static? = some key ∧ key ∈ c.bindings.map PropBinding.propName := by
  have hdropped : ∀ computed : Name,
      p.1.static?.getD computed ∈ c.bindings.map PropBinding.propName := by
    intro computed
    by_contra hnot
    -- the only property of the props is the one under this key
    obtain ⟨result, hresult, _, hkeys⟩ := @bound_throwing α c .null
      [p.1.static?.getD computed] computed hflat rfl
    have hsame := h.rest hrest _ _ hresult
    rw [droppedKeys_rewritten hrest] at hsame
    have hleft : (p.1.static?.getD computed, Value.null) ∈ (throwingRun
        [p.1.static?.getD computed] (.null : Value α) computed).props.remaining
          (c.bindings.map PropBinding.propName) :=
      mem_remaining.mpr ⟨mem_singleton_self _, hnot, rfl⟩
    rw [hsame, mem_remaining] at hleft
    refine hleft.2.1 ?_
    rw [hkeys]
    exact mem_map_of_mem (f := fun q => q.1.static?.getD computed) hp
  cases hstatic : p.1.static? with
  | some key =>
    have hkey := hdropped ""
    rw [hstatic] at hkey
    exact ⟨key, rfl, hkey⟩
  | none =>
    obtain ⟨computed, hfresh⟩ :=
      Infinite.exists_notMem_finset (c.bindings.map PropBinding.propName).toFinset
    have hkey := hdropped computed
    rw [hstatic] at hkey
    exact absurd (mem_toFinset.mpr hkey) hfresh

/-- A parameter after the first sees nothing of the first one. -/
theorem parameters_of_faithful (hflat : c.Flat) (h : (rewritten c).Faithful c)
    {o : Occurrence Unit} (ho : o ∈ c.others.occurrences []) (hname : o.name ∈ c.bindingNames) :
    o.name ∈ o.inner := by
  by_contra hinner
  obtain ⟨result, hresult, hlookup, _⟩ := @bound_throwing α c .null [] "" hflat rfl
  have hgives := (h.parameters o ho hname hinner).2 _ _ hresult
  have hlocal : ¬ (o.name ∈ o.inner ∨ o.name ∈ c.others.names) :=
    not_or.mpr ⟨hinner, not_other_of_mem_bindingNames hname⟩
  rw [rewrittenScope, if_neg hlocal, if_neg (by simp)] at hgives
  rw [Component.boundValue] at hgives
  by_cases hrest : c.rest = some o.name
  · rw [if_pos hrest] at hgives
    split at hgives
    · -- `__props` is the whole object
      have hget := congrFun (Value.object.inj (Option.some.inj hgives)) ""
      cases hget
    · cases hgives
  · rw [Component.bindingNames, mem_append, mem_toList] at hname
    rw [if_neg hrest, hlookup _ (hname.resolve_right hrest)] at hgives
    split at hgives
    · cases hgives
    · cases hgives

theorem sound_of_faithful (hflat : c.Flat) (h : (rewritten c).Faithful c) : c.Sound := by
  have hmem : ∀ o ∈ c.seen, marked c.replacement? o ∈ (rewritten c).body.occurrences [] := by
    intro o ho
    rw [occurrences_rewritten]
    exact mem_map_of_mem ho
  constructor
  case reads => exact fun o ho hrole hresolves => reads_of_faithful hflat h ho hrole hresolves
  case shadows =>
    intro o ho hrole hresolves hknown
    exact replacement_eq_none.mp (h.untouched _ (hmem o ho) hresolves) hrole hknown
  case writes => exact fun o ho => h.writes _ (hmem o ho)
  case parameters => exact fun o ho hname => parameters_of_faithful hflat h ho hname
  case param => exact h.parses.param
  case rest =>
    intro s hs
    obtain ⟨hdrops, harrow, hnodup, hnames⟩ := h.parses.rest s hs
    obtain ⟨r, hr, _⟩ := map_eq_some_iff.mp hs
    exact ⟨(drops_ne_nil hs).mp hdrops, harrow, hnodup, hnames,
      fun p hp => key_of_faithful hflat h (by simp [hr]) hp⟩

/-- With every key static and repeated as an identifier, the rest statement
drops the keys that destructuring reads. -/
theorem remaining_eq {run : Run α} {result : Bound α} (hbound : c.bound run = some result)
    (hrest : c.rest.isSome)
    (hkeys : ∀ p ∈ c.properties, ∃ key, p.1.static? = some key ∧
      key ∈ c.bindings.map PropBinding.propName) :
    run.props.remaining (rewritten c).droppedKeys = run.props.remaining result.keys := by
  have hread := keys_foldlM hbound (fun k => k.static?.getD "") (by
    intro p hp env
    obtain ⟨key, hkey, _⟩ := hkeys p hp
    revert hkey
    cases p.1 <;> simp [PropertyKey.static?, PropertyKey.value])
  have hsame : ∀ key, key ∈ (rewritten c).droppedKeys ↔ key ∈ result.keys := by
    intro key
    rw [droppedKeys_rewritten hrest, hread, nil_append]
    constructor
    · intro hkey
      obtain ⟨b, hb, rfl⟩ := mem_map.mp hkey
      obtain ⟨p, hp, hkey, _⟩ := mem_bindings.mp hb
      exact mem_map.mpr ⟨p, hp, by simp [hkey, PropertyKey.static?]⟩
    · intro hkey
      obtain ⟨p, hp, rfl⟩ := mem_map.mp hkey
      obtain ⟨key, hstatic, hmem⟩ := hkeys p hp
      simpa [hstatic] using hmem
  simp only [Props.remaining, hsame]

theorem faithful_of_sound (h : c.Sound) : (rewritten c).Faithful c := by
  have hseen : ∀ {o : Occurrence (Option (PropBinding α))},
      o ∈ (rewritten c).body.occurrences [] → ∃ s ∈ c.seen, marked c.replacement? s = o := by
    intro o ho
    rw [occurrences_rewritten] at ho
    exact mem_map.mp ho
  constructor
  case parses =>
    refine ⟨h.param, fun s hs => ?_⟩
    obtain ⟨hbindings, harrow, hnodup, hnames, _⟩ := h.rest s hs
    exact ⟨(drops_ne_nil hs).mpr hbindings, harrow, hnodup, hnames⟩
  case reads =>
    intro o ho hrole hresolves run result hbound
    obtain ⟨s, hs, rfl⟩ := hseen ho
    obtain ⟨hshadow, hprops, b, hb, hname, hdefault⟩ := h.reads s hs hrole hresolves
    have hrole' : s.role ≠ .binding := by
      intro hbinding
      rcases hrole with hrole | hrole <;> exact absurd (hbinding.symm.trans hrole) (by decide)
    rw [value_some (replacement_eq_some.mpr ⟨hrole', hshadow, hb, hname⟩)]
    have hscope : bodyScope c run s.inner "__props" = some (.object run.props.get) :=
      bodyScope_props (fun t ht name hmem => ((h.rest t ht).2.2.2.1 name hmem).1) hprops
    rw [evaluate_binding hbound hb hdefault hscope, hname]
    rfl
  case untouched =>
    intro o ho hresolves
    obtain ⟨s, hs, rfl⟩ := hseen ho
    exact replacement_eq_none.mpr fun hrole hknown => h.shadows s hs hrole hresolves hknown
  case writes =>
    intro o ho hread hshorthand
    obtain ⟨s, hs, rfl⟩ := hseen ho
    exact h.writes s hs hread hshorthand
  case parameters => exact fun o ho hname hinner => absurd (h.parameters o ho hname) hinner
  case rest =>
    intro hrest run result hbound
    obtain ⟨r, hr⟩ := isSome_iff_exists.mp hrest
    have hs : ∃ s, c.restStatement = some s := ⟨_, by rw [Component.restStatement, hr]; rfl⟩
    obtain ⟨s, hs⟩ := hs
    exact remaining_eq hbound hrest (h.rest s hs).2.2.2.2

end Main

/-! ## Two components -/

/-- `function Card({ title, ...rest }) { return <div {...rest}>{title}</div>; }` -/
def card : Component String where
  name := "Card"
  isVariable := false
  properties := [(.staticIdentifier "title", .identifier "title" ())]
  rest := some "rest"
  others := .empty
  isArrowExpression := false
  body := .compound .operand
    (.seq (.identifier .read "rest" ()) (.identifier .read "title" ()))
  distinct := by decide

theorem card_seen :
    card.seen = [⟨.read, "rest", [], [[]]⟩, ⟨.read, "title", [], [[]]⟩] := rfl

theorem card_sound : card.Sound where
  reads := by
    rw [card_seen]
    intro o ho _ hresolves
    rcases mem_cons.mp ho with rfl | ho
    · exact absurd hresolves (by decide)
    · rw [mem_singleton.mp ho]
      refine ⟨by decide, by decide, ⟨"title", "title", none⟩, mem_singleton_self _, rfl, ?_⟩
      intro default hdefault
      cases hdefault
  shadows := by rw [card_seen]; decide
  writes := by rw [card_seen]; decide
  parameters := by decide
  param := by decide
  rest := by
    intro s hs
    cases hs
    have hbindings : card.bindings = [⟨"title", "title", none⟩] := rfl
    refine ⟨by simp [hbindings], rfl, by decide, by decide, fun p hp => ?_⟩
    rw [mem_singleton.mp hp]
    exact ⟨"title", rfl, by decide⟩

/-- `function Card({ title }) { { const title = 'x'; return <div>{title}</div>; } }` -/
def cardWithBlock : Component String where
  name := "Card"
  isVariable := false
  properties := [(.staticIdentifier "title", .identifier "title" ())]
  rest := none
  others := .empty
  isArrowExpression := false
  body := .block (.seq (.declarator .lexical (.identifier "title" ()) (.literal (some "x")))
    (.identifier .read "title" ()))
  distinct := by decide

end Vertz.Proofs.PropsMeaning
