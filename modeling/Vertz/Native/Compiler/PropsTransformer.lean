import Mathlib.Data.List.Basic

/-!
# `Vertz.Native.Compiler.PropsTransformer`: destructured props become reads of `__props`

`src/native/vertz-compiler-core/src/props_transformer.rs`, with
`collect_param_names` of `signal_transformer.rs`. The first parameter of a
component becomes `__props` and the walker writes `__props.name` over the
references it takes for destructured bindings. It keeps a stack of the
names that enclosing functions shadow.

The tree keeps what the walker and JavaScript's scopes look at. Any other
form is `compound`, its parts in the order the walker visits them. An
identifier carries a mark: nothing in the source, in the output the binding
whose read stands in its place. Semicolons that the source leaves out are
taken as written.
-/

namespace Vertz.Native.Compiler

abbrev Name := String

/-- Where an identifier stands: an expression, `{ x }` in an object
literal, an assignment target, `{ x }` in a target, or a binding. -/
inductive Role where
  | read
  | shorthand
  | target
  | shorthandTarget
  | binding
  deriving DecidableEq, Repr

/-- `let`, `const` and `using` are `lexical`. -/
inductive VarKind where
  | var
  | lexical
  deriving DecidableEq, Repr

/-- How an expression reads after `left ??`: as the right operand, not at
all for `||` and `&&`, with `??` taking the test of `test ? a : b`, and not
at all for assignments and `yield`. -/
inductive Grouping where
  | operand
  | logical
  | conditional
  | loose
  deriving DecidableEq, Repr

mutual

/-- Statements and expressions. A loop is a `block` around its head and
body; a named class expression is a `block` around its declaration. -/
inductive Ast (α ρ : Type) where
  | empty
  | seq (first second : Ast α ρ)
  /-- `null` is `none`. -/
  | literal (value : Option α)
  | identifier (role : Role) (name : Name) (mark : ρ)
  | parens (inner : Ast α ρ)
  | coalesce (left right : Ast α ρ)
  | compound (grouping : Grouping) (parts : Ast α ρ)
  /-- A declarator without initializer. The head of a `for`-`of` or
  `for`-`in` loop stores into it. -/
  | declaration (kind : VarKind) (iterates : Bool) (id : BindingPattern α ρ)
  | declarator (kind : VarKind) (id : BindingPattern α ρ) (init : Ast α ρ)
  /-- A function expression, an arrow function or a method. -/
  | function (arrow : Bool) (name : Option Name) (params : BindingPattern α ρ) (body : Ast α ρ)
  | functionDeclaration (name : Name) (params : BindingPattern α ρ) (body : Ast α ρ)
  | classDeclaration (name : Name) (body : Ast α ρ)
  | staticBlock (body : Ast α ρ)
  | block (body : Ast α ρ)
  | catchClause (param : BindingPattern α ρ) (body : Ast α ρ)

/-- Binding patterns. `group` is an object or array pattern around its
parts; a list of parameters is the sequence of their patterns. -/
inductive BindingPattern (α ρ : Type) where
  | empty
  | seq (first second : BindingPattern α ρ)
  | group (parts : BindingPattern α ρ)
  | identifier (name : Name) (mark : ρ)
  | computed (key : Ast α ρ) (value : BindingPattern α ρ)
  | assignment (left : BindingPattern α ρ) (right : Ast α ρ)

end

variable {α ρ σ : Type}

/-- `collect_binding_pattern_names`. -/
def BindingPattern.names : BindingPattern α ρ → List Name
  | .empty => []
  | .seq first second => first.names ++ second.names
  | .group parts => parts.names
  | .identifier name _ => [name]
  | .computed _ value => value.names
  | .assignment left _ => left.names

/-- Only declarators with a plain name, directly in the body. -/
def Ast.collectBlockVarNames : Ast α ρ → List Name
  | .seq first second => first.collectBlockVarNames ++ second.collectBlockVarNames
  | .declaration _ _ (.identifier name _) => [name]
  | .declarator _ (.identifier name _) _ => [name]
  | _ => []

/-- The shadow that a declarator of a destructured name pushes while its
initializer is visited. -/
def BindingPattern.declaratorShadow (known : Name → Bool) : BindingPattern α ρ → List (List Name)
  | .identifier name _ => if known name then [[name]] else []
  | _ => []

/-! ## The walker -/

section Visit

variable (known : Name → Bool) (onIdentifier : List (List Name) → Role → Name → σ)

mutual

/-- `PropsRefReplacer`: `shadowed` is its stack, `onIdentifier` what it does
at an identifier. -/
def Ast.visit (shadowed : List (List Name)) : Ast α ρ → Ast α σ
  | .empty => .empty
  | .seq first second => .seq (first.visit shadowed) (second.visit shadowed)
  | .literal value => .literal value
  | .identifier role name _ => .identifier role name (onIdentifier shadowed role name)
  | .parens inner => .parens (inner.visit shadowed)
  | .coalesce left right => .coalesce (left.visit shadowed) (right.visit shadowed)
  | .compound grouping parts => .compound grouping (parts.visit shadowed)
  | .declaration kind iterates id => .declaration kind iterates (id.visit shadowed)
  | .declarator kind id init =>
    .declarator kind (id.visit shadowed) (init.visit (id.declaratorShadow known ++ shadowed))
  | .function arrow name params body =>
    .function arrow name
      (params.visit ((params.names ++ body.collectBlockVarNames) :: shadowed))
      (body.visit ((params.names ++ body.collectBlockVarNames) :: shadowed))
  | .functionDeclaration name params body =>
    .functionDeclaration name
      (params.visit ((params.names ++ body.collectBlockVarNames) :: shadowed))
      (body.visit ((params.names ++ body.collectBlockVarNames) :: shadowed))
  | .classDeclaration name body => .classDeclaration name (body.visit shadowed)
  | .staticBlock body => .staticBlock (body.visit shadowed)
  | .block body => .block (body.visit shadowed)
  | .catchClause param body => .catchClause (param.visit shadowed) (body.visit shadowed)

def BindingPattern.visit (shadowed : List (List Name)) : BindingPattern α ρ → BindingPattern α σ
  | .empty => .empty
  | .seq first second => .seq (first.visit shadowed) (second.visit shadowed)
  | .group parts => .group (parts.visit shadowed)
  | .identifier name _ => .identifier name (onIdentifier shadowed .binding name)
  | .computed key value => .computed (key.visit shadowed) (value.visit shadowed)
  | .assignment left right => .assignment (left.visit shadowed) (right.visit shadowed)

end

end Visit

/-! ## The component -/

/-- A property key of the pattern. A string or number literal is the key it
names. -/
inductive PropertyKey (α : Type) where
  | staticIdentifier (name : Name)
  | literal (name : Name)
  | computed (key : Ast α Unit)

def PropertyKey.extractPropKeyName : PropertyKey α → Option Name
  | .staticIdentifier name => some name
  | _ => none

/-- A component whose first parameter is an object pattern. The names that
the parameters bind are distinct, as the parser checks. -/
structure Component (α : Type) where
  name : Name
  /-- `const Card = …`, not `function Card`. -/
  isVariable : Bool
  properties : List (PropertyKey α × BindingPattern α Unit)
  rest : Option Name
  /-- The parameters after the first. -/
  others : BindingPattern α Unit
  /-- An arrow function without a block. -/
  isArrowExpression : Bool
  body : Ast α Unit
  distinct : (properties.flatMap (fun p => p.2.names) ++ rest.toList ++ others.names).Nodup

structure PropBinding (α : Type) where
  propName : Name
  bindingName : Name
  defaultValue : Option (Ast α Unit)

/-- The name and the default of a property that is neither nested nor has a
nested pattern under its default. -/
def BindingPattern.flat? : BindingPattern α Unit → Option (Name × Option (Ast α Unit))
  | .identifier name _ => some (name, none)
  | .assignment (.identifier name _) default => some (name, some default)
  | _ => none

/-- A nested pattern directly under its key. -/
def BindingPattern.isNested : BindingPattern α ρ → Bool
  | .group _ => true
  | _ => false

namespace Component

variable (c : Component α)

/-- The bindings of `extract_from_params` other than the rest: a key that
is no identifier is skipped. -/
def bindings : List (PropBinding α) :=
  c.properties.filterMap fun p =>
    match p.1.extractPropKeyName, p.2.flat? with
    | some propName, some (bindingName, default) => some ⟨propName, bindingName, default⟩
    | _, _ => none

def hasNestedDestructuring : Bool :=
  c.properties.any fun p => p.1.extractPropKeyName.isSome && p.2.isNested

/-- `binding_map.get`. -/
def binding? (name : Name) : Option (PropBinding α) :=
  c.bindings.find? (fun b => b.bindingName = name)

def isShadowed (shadowed : List (List Name)) (name : Name) : Bool :=
  shadowed.any (fun names => names.contains name)

/-- `visit_identifier_reference` and `visit_object_property`: the read that
is written over an identifier. -/
def replacement? (shadowed : List (List Name)) (role : Role) (name : Name) :
    Option (PropBinding α) :=
  if role = .binding ∨ isShadowed shadowed name then none else c.binding? name

/-- The stack in the component's body: its own declarators, under the
declarator of the component itself. Its parameters do not shadow. -/
def bodyShadow : List (List Name) :=
  c.body.collectBlockVarNames ::
    if c.isVariable ∧ (c.binding? c.name).isSome then [[c.name]] else []

end Component

def dropName (i : ℕ) : Name := s!"__$drop_{i}"

/-- The statement ` const { title: __$drop_0, ...rest } = __props;`. -/
structure RestStatement where
  drops : List (Name × Name)
  rest : Name
  deriving DecidableEq, Repr

/-- A rewritten component. Its first parameter is `__props`; the statement
stands after the first character of the body. -/
structure Transformed (α : Type) where
  body : Ast α (Option (PropBinding α))
  restStatement : Option RestStatement

def Component.restStatement (c : Component α) : Option RestStatement :=
  c.rest.map fun rest => ⟨c.bindings.mapIdx fun i b => (b.propName, dropName i), rest⟩

/-- The rewritten component, `none` where the source is left as it is. -/
def transformProps (c : Component α) : Option (Transformed α) :=
  if c.hasNestedDestructuring then none
  else if c.bindings.isEmpty ∧ c.rest.isNone then none
  else
    some
      { body := c.body.visit (fun name => (c.binding? name).isSome) c.replacement? c.bodyShadow
        restStatement := c.restStatement }

end Vertz.Native.Compiler
