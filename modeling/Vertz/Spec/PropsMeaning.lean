import Vertz.Native.Compiler.PropsTransformer

/-!
# `Vertz.Spec.PropsMeaning`: what a component's references mean

JavaScript's scopes over the tree, the values that destructuring binds on
entry, and the values that the reads of a rewritten component give.
`Preserves` says that these agree, for every call of the component.
`Sound` is a condition on the source text alone.
-/

namespace Vertz.Native.Compiler

variable {α ρ σ : Type}

/-! ## Scopes -/

/-- The names that declarations directly in a scope bind, other than by
`var` or a function declaration. -/
def Ast.lexicalNames : Ast α ρ → List Name
  | .seq first second => first.lexicalNames ++ second.lexicalNames
  | .declaration .lexical _ id => id.names
  | .declarator .lexical id _ => id.names
  | .classDeclaration name _ => [name]
  | _ => []

def Ast.functionNames : Ast α ρ → List Name
  | .seq first second => first.functionNames ++ second.functionNames
  | .functionDeclaration name _ _ => [name]
  | _ => []

/-- The names that `var` binds, in nested statements as well. -/
def Ast.varNames : Ast α ρ → List Name
  | .seq first second => first.varNames ++ second.varNames
  | .compound _ parts => parts.varNames
  | .block body => body.varNames
  | .catchClause _ body => body.varNames
  | .declaration .var _ id => id.names
  | .declarator .var id _ => id.names
  | _ => []

def Ast.blockScope (body : Ast α ρ) : List Name := body.lexicalNames ++ body.functionNames

def Ast.functionScope (body : Ast α ρ) : List Name := body.blockScope ++ body.varNames

/-- An identifier under the names that the scopes around it declare. -/
structure Occurrence (ρ : Type) where
  role : Role
  name : Name
  inner : List Name
  mark : ρ

mutual

/-- The identifiers of a tree in source order. A binding counts where it
receives a value: not in `var x;`. -/
def Ast.occurrences (inner : List Name) : Ast α ρ → List (Occurrence ρ)
  | .empty => []
  | .seq first second => first.occurrences inner ++ second.occurrences inner
  | .literal _ => []
  | .identifier role name mark => [⟨role, name, inner, mark⟩]
  | .parens e => e.occurrences inner
  | .coalesce left right => left.occurrences inner ++ right.occurrences inner
  | .compound _ parts => parts.occurrences inner
  | .declaration _ iterates id => if iterates then id.occurrences inner else []
  | .declarator _ id init => id.occurrences inner ++ init.occurrences inner
  | .function _ name params body =>
    params.occurrences (params.names ++ name.toList ++ inner) ++
      body.occurrences (body.functionScope ++ params.names ++ name.toList ++ inner)
  | .functionDeclaration _ params body =>
    params.occurrences (params.names ++ inner) ++
      body.occurrences (body.functionScope ++ params.names ++ inner)
  | .classDeclaration _ body => body.occurrences inner
  | .staticBlock body => body.occurrences (body.functionScope ++ inner)
  | .block body => body.occurrences (body.blockScope ++ inner)
  | .catchClause param body =>
    param.occurrences (param.names ++ inner) ++ body.occurrences (param.names ++ inner)

def BindingPattern.occurrences (inner : List Name) : BindingPattern α ρ → List (Occurrence ρ)
  | .empty => []
  | .seq first second => first.occurrences inner ++ second.occurrences inner
  | .group parts => parts.occurrences inner
  | .identifier name mark => [⟨.binding, name, inner, mark⟩]
  | .computed key value => key.occurrences inner ++ value.occurrences inner
  | .assignment left right => left.occurrences inner ++ right.occurrences inner

end

/-! ## Values -/

inductive Value (α : Type) where
  | undefined
  | null
  | primitive (a : α)
  | object (get : Name → Value α)

namespace Value

def isUndefined : Value α → Bool
  | undefined => true
  | _ => false

def isNullish : Value α → Bool
  | undefined | null => true
  | _ => false

end Value

abbrev Env (α : Type) := Name → Option (Value α)

/-- The rest of the language: what expressions of any other form give, the
value of `left ?? test ? a : b`, the key of a computed property, and a
property of a primitive value. `none` is an exception. -/
structure Host (α : Type) where
  evaluate : Ast α Unit → Env α → Option (Value α)
  regrouped : Value α → Ast α Unit → Env α → Option (Value α)
  key : Ast α Unit → Env α → Name
  read : α → Name → Option (Value α)

section Evaluate

variable (host : Host α) (env : Env α)

def orElse (value : Option (Value α)) (other : Option (Value α)) : Option (Value α) :=
  value.bind fun v => if v.isNullish then other else some v

def evaluate : Ast α Unit → Option (Value α)
  | .literal none => some .null
  | .literal (some a) => some (.primitive a)
  | .identifier .read name _ => env name
  | .parens e => evaluate e
  | .coalesce left right => orElse (evaluate left) (evaluate right)
  | e => host.evaluate e env

/-- The value of the text `left ?? e`, with `e` as it is written: only a
part of `e` may be the right operand. -/
def evaluateAfter (left : Value α) : Ast α Unit → Option (Value α)
  | .coalesce first second => orElse (evaluateAfter left first) (evaluate host env second)
  | .compound .logical _ => none
  | .compound .loose _ => none
  | .function true _ _ _ => none
  | .compound .conditional parts => host.regrouped left parts env
  | e => orElse (some left) (evaluate host env e)

def readProperty (name : Name) : Value α → Option (Value α)
  | .object get => some (get name)
  | .primitive a => host.read a name
  | _ => none

/-- `__props.name`, or `(__props.name ?? default)`. -/
def PropBinding.evaluate (b : PropBinding α) : Option (Value α) :=
  ((env "__props").bind (readProperty host b.propName)).bind fun v =>
    match b.defaultValue with
    | none => some v
    | some default => evaluateAfter host env v default

end Evaluate

/-! ## Calls -/

/-- A props object: its own enumerable keys, and what reading a key gives. -/
structure Props (α : Type) where
  own : List Name
  get : Name → Value α

/-- What a call of the component finds: the props, the names of the module,
and whatever the variables of inner scopes and other parameters hold. -/
structure Run (α : Type) where
  host : Host α
  props : Props α
  outer : Env α
  locals : Env α

/-- The keys that destructuring has read and the variables it has bound. -/
structure Bound (α : Type) where
  keys : List Name
  values : List (Name × Value α)

/-- A default is evaluated for `undefined` only. -/
def withDefault (host : Host α) (env : Env α) (default : Option (Ast α Unit)) (value : Value α) :
    Option (Value α) :=
  match default with
  | some default => if value.isUndefined then evaluate host env default else some value
  | none => some value

def PropertyKey.value (host : Host α) (env : Env α) : PropertyKey α → Name
  | .staticIdentifier name | .literal name => name
  | .computed key => host.key key env

/-- The properties that are left for a rest element. -/
def Props.remaining (props : Props α) (keys : List Name) : List (Name × Value α) :=
  (props.own.filter (· ∉ keys)).map fun key => (key, props.get key)

/-- The rest object. -/
def Props.restObject (props : Props α) (keys : List Name) : Value α :=
  .object fun key => ((props.remaining keys).lookup key).getD .undefined

namespace Component

variable (c : Component α)

/-- The names that the destructured properties bind. -/
def locals : List Name := c.properties.flatMap (fun p => p.2.names)

/-- The names that the first parameter binds. -/
def bindingNames : List Name := c.locals ++ c.rest.toList

/-- No property is nested. -/
def Flat : Prop := ∀ p ∈ c.properties, (p.2.flat?).isSome

/-- The scope of the parameters while they are bound: a later name cannot
be read yet. -/
def entryScope (outer : Env α) (values : List (Name × Value α)) : Env α := fun name =>
  match values.lookup name with
  | some value => some value
  | none => if name ∈ c.bindingNames ++ c.others.names then none else outer name

def bindProperty (run : Run α) (bound : Bound α)
    (property : PropertyKey α × BindingPattern α Unit) : Option (Bound α) := do
  let env := c.entryScope run.outer bound.values
  let (name, default) ← property.2.flat?
  let key := property.1.value run.host env
  let value ← withDefault run.host env default (run.props.get key)
  return ⟨bound.keys ++ [key], bound.values ++ [(name, value)]⟩

/-- What JavaScript's destructuring binds on entry. -/
def bound (run : Run α) : Option (Bound α) :=
  c.properties.foldlM (c.bindProperty run) ⟨[], []⟩

/-- The value of a name of the first parameter. -/
def boundValue (run : Run α) (bound : Bound α) (name : Name) : Option (Value α) :=
  if c.rest = some name then some (run.props.restObject bound.keys)
  else bound.values.lookup name

/-- An identifier of the body is one of `names`, which the first parameter
binds. A `var` of the body with the name of a parameter is that parameter. -/
def Resolves (names : List Name) (o : Occurrence ρ) : Prop :=
  o.name ∈ names ∧ o.name ∉ o.inner ∧ o.name ∉ c.body.blockScope

instance (names : List Name) (o : Occurrence ρ) : Decidable (c.Resolves names o) :=
  inferInstanceAs (Decidable (_ ∧ _ ∧ _))

/-- The names that the scope of the body declares, other than the rest of a
rewritten component. What its drops hold is left open. -/
def declared : List Name :=
  c.others.names ++ c.body.functionScope ++
    (c.restStatement.map fun s => s.drops.map Prod.snd).getD []

end Component

/-- Of a rewritten component: what is in scope under `inner`, where
`declared` are the names of the surrounding parameters and body and `rest`
is the variable of the rest statement. -/
def rewrittenScope (run : Run α) (declared : List Name) (rest : Option (Name × Value α))
    (inner : List Name) : Env α := fun name =>
  if name ∈ inner ∨ name ∈ declared then run.locals name
  else if rest.map Prod.fst = some name then rest.map Prod.snd
  else if name = "__props" then some (.object run.props.get)
  else run.outer name

namespace Transformed

variable (c : Component α) (out : Transformed α)

/-- The keys that the rest statement drops. -/
def droppedKeys : List Name :=
  (out.restStatement.map fun s => s.drops.map Prod.fst).getD []

def restVariable (run : Run α) : Option (Name × Value α) :=
  out.restStatement.map fun s => (s.rest, run.props.restObject out.droppedKeys)

/-- What an identifier that is read gives. -/
def value (run : Run α) (o : Occurrence (Option (PropBinding α))) : Option (Value α) :=
  let env := rewrittenScope run c.declared (out.restVariable run) o.inner
  match o.mark with
  | some b => b.evaluate run.host env
  | none => env o.name

/-- The output is a program: no name is declared twice, and the rest
statement is one, in a block. Without drops it reads `{ , ...rest }`. -/
structure Parses : Prop where
  param : "__props" ∉ c.others.names ++ c.body.lexicalNames
  rest : ∀ s, out.restStatement = some s →
    s.drops ≠ [] ∧ c.isArrowExpression = false ∧
      (s.drops.map Prod.snd ++ [s.rest]).Nodup ∧
      ∀ name ∈ s.drops.map Prod.snd ++ [s.rest],
        name ≠ "__props" ∧ name ∉ c.others.names ++ c.body.functionScope

/-- A rewritten component means what its source means. `reads`: a reference
to a destructured binding gives what destructuring binds. `untouched`: any
other identifier stays. `writes`: no assignment is to a variable of the
first parameter, since none of these is left to assign. `parameters`: the
same for the parameters after the first. `rest`: the rest binding holds the
same properties. -/
structure Faithful : Prop where
  parses : out.Parses c
  reads : ∀ o ∈ out.body.occurrences [], o.role = .read ∨ o.role = .shorthand →
    c.Resolves c.locals o → ∀ run bound, c.bound run = some bound →
      out.value c run o = bound.values.lookup o.name
  untouched : ∀ o ∈ out.body.occurrences [], ¬ c.Resolves c.locals o → o.mark = none
  writes : ∀ o ∈ out.body.occurrences [], o.role ≠ .read → o.role ≠ .shorthand →
    ¬ c.Resolves c.bindingNames o
  parameters : ∀ o ∈ c.others.occurrences [], o.name ∈ c.bindingNames → o.name ∉ o.inner →
    (o.role = .read ∨ o.role = .shorthand) ∧ ∀ run bound, c.bound run = some bound →
      rewrittenScope run c.others.names none o.inner o.name = c.boundValue run bound o.name
  rest : c.rest.isSome → ∀ run bound, c.bound run = some bound →
    run.props.remaining out.droppedKeys = run.props.remaining bound.keys

end Transformed

/-- Rewriting the props of a component preserves its meaning. A source that
is left as it is keeps it. -/
def Component.Preserves (c : Component α) : Prop :=
  ∀ out, transformProps c = some out → out.Faithful c

/-! ## The condition -/

/-- The value of an expression of literals, parentheses and `??`. -/
def Ast.constant : Ast α Unit → Option (Option α)
  | .literal value => some value
  | .parens e => e.constant
  | .coalesce left right =>
    match left.constant with
    | some none => right.constant
    | other => other
  | _ => none

def PropertyKey.static? : PropertyKey α → Option Name
  | .staticIdentifier name | .literal name => some name
  | .computed _ => none

namespace Component

variable (c : Component α)

/-- The identifiers of the body, each with the names that enclosing
functions are seen to shadow. -/
def seen : List (Occurrence (List (List Name))) :=
  (c.body.visit (fun name => (c.binding? name).isSome) (fun shadowed _ _ => shadowed)
    c.bodyShadow).occurrences []

/-- The source is rewritten at all. -/
def Rewritten : Prop := c.bindings ≠ [] ∨ c.rest.isSome

/-- When rewriting is right. `reads`: a reference to a destructured binding
is not seen as shadowed, nothing around it is called `__props`, and the
binding has an identifier key and no default but `null`. `shadows`: a
variable of an inner scope with the name of such a binding is seen. `rest`:
a rest binding is declared in a block, next to a destructured name, with no
name taken, and every key that is no identifier is repeated as one. -/
structure Sound : Prop where
  reads : ∀ o ∈ c.seen, o.role = .read ∨ o.role = .shorthand → c.Resolves c.locals o →
    isShadowed o.mark o.name = false ∧ "__props" ∉ o.inner ++ c.declared ∧
      ∃ b ∈ c.bindings, b.bindingName = o.name ∧
        ∀ default, b.defaultValue = some default → default.constant = some none
  shadows : ∀ o ∈ c.seen, o.role ≠ .binding → ¬ c.Resolves c.locals o →
    (c.binding? o.name).isSome → isShadowed o.mark o.name = true
  writes : ∀ o ∈ c.seen, o.role ≠ .read → o.role ≠ .shorthand → ¬ c.Resolves c.bindingNames o
  parameters : ∀ o ∈ c.others.occurrences [], o.name ∈ c.bindingNames → o.name ∈ o.inner
  param : "__props" ∉ c.others.names ++ c.body.lexicalNames
  rest : ∀ s, c.restStatement = some s →
    c.bindings ≠ [] ∧ c.isArrowExpression = false ∧
      (s.drops.map Prod.snd ++ [s.rest]).Nodup ∧
      (∀ name ∈ s.drops.map Prod.snd ++ [s.rest],
        name ≠ "__props" ∧ name ∉ c.others.names ++ c.body.functionScope) ∧
      ∀ p ∈ c.properties, ∃ key, p.1.static? = some key ∧ key ∈ c.bindings.map PropBinding.propName

end Component

end Vertz.Native.Compiler
