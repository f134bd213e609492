import Vertz.Server.Auth.WalletStore

/-!
# `Vertz.Server.Auth.ClosureStore`: the closure table of the resource hierarchy

`InMemoryClosureStore` keeps one row for each resource and ancestor, and
a row of depth 0 for each resource itself. A resource is its type and id,
also where the source has them as two fields of a row or of a parent.
-/

namespace Vertz.Server.Auth

structure ClosureRow where
  ancestor : ResourceRef
  descendant : ResourceRef
  depth : ℕ
  deriving DecidableEq, Repr

structure ClosureEntry where
  resource : ResourceRef
  depth : ℕ
  deriving DecidableEq, Repr

def MAX_DEPTH : ℕ := 4

structure InMemoryClosureStore where
  rows : List ClosureRow := []
  deriving DecidableEq, Repr

namespace InMemoryClosureStore

def getAncestors (store : InMemoryClosureStore) (resource : ResourceRef) : List ClosureEntry :=
  (store.rows.filter fun row => row.descendant = resource).map
    fun row => ⟨row.ancestor, row.depth⟩

def getDescendants (store : InMemoryClosureStore) (resource : ResourceRef) : List ClosureEntry :=
  (store.rows.filter fun row => row.ancestor = resource).map
    fun row => ⟨row.descendant, row.depth⟩

def hasPath (store : InMemoryClosureStore) (ancestor descendant : ResourceRef) : Bool :=
  store.rows.any fun row => row.ancestor = ancestor ∧ row.descendant = descendant

/-- The store after the call, and whether the call threw. -/
def addResource (store : InMemoryClosureStore) (resource : ResourceRef)
    (parent : Option ResourceRef) : InMemoryClosureStore × Except StoreError Unit :=
  let pushed : InMemoryClosureStore := ⟨store.rows ++ [⟨resource, resource, 0⟩]⟩
  match parent with
  | none => (pushed, .ok ())
  | some parent =>
    let parentAncestors := pushed.getAncestors parent
    let maxParentDepth := (parentAncestors.map (·.depth)).foldl max 0
    if maxParentDepth + 1 ≥ MAX_DEPTH then
      (⟨pushed.rows.dropLast⟩, .error ⟨"Hierarchy depth exceeds maximum of 4 levels"⟩)
    else
      (⟨pushed.rows ++ parentAncestors.map
        fun ancestor => ⟨ancestor.resource, resource, ancestor.depth + 1⟩⟩, .ok ())

/-- The key of a resource in `removeResource`. -/
def key (resource : ResourceRef) : String := resource.type ++ ":" ++ resource.id

def removeResource (store : InMemoryClosureStore) (resource : ResourceRef) :
    InMemoryClosureStore :=
  let descendantKeys := (store.getDescendants resource).map fun d => key d.resource
  ⟨store.rows.filter fun row =>
    !descendantKeys.contains (key row.ancestor) && !descendantKeys.contains (key row.descendant)⟩

/-! ### Reading the table -/

@[simp] theorem mem_getAncestors {store : InMemoryClosureStore} {resource : ResourceRef}
    {entry : ClosureEntry} : entry ∈ store.getAncestors resource ↔
      ⟨entry.resource, resource, entry.depth⟩ ∈ store.rows := by
  simp only [getAncestors, List.mem_map, List.mem_filter, decide_eq_true_eq]
  constructor
  · rintro ⟨row, ⟨hrow, rfl⟩, rfl⟩
    exact hrow
  · intro h
    exact ⟨_, ⟨h, rfl⟩, rfl⟩

@[simp] theorem mem_getDescendants {store : InMemoryClosureStore} {resource : ResourceRef}
    {entry : ClosureEntry} : entry ∈ store.getDescendants resource ↔
      ⟨resource, entry.resource, entry.depth⟩ ∈ store.rows := by
  simp only [getDescendants, List.mem_map, List.mem_filter, decide_eq_true_eq]
  constructor
  · rintro ⟨row, ⟨hrow, rfl⟩, rfl⟩
    exact hrow
  · intro h
    exact ⟨_, ⟨h, rfl⟩, rfl⟩

@[simp] theorem hasPath_iff {store : InMemoryClosureStore} {ancestor descendant : ResourceRef} :
    store.hasPath ancestor descendant = true ↔
      ∃ depth, ⟨ancestor, descendant, depth⟩ ∈ store.rows := by
  simp only [hasPath, List.any_eq_true, decide_eq_true_eq]
  constructor
  · rintro ⟨row, hrow, rfl, rfl⟩
    exact ⟨row.depth, hrow⟩
  · rintro ⟨depth, hrow⟩
    exact ⟨_, hrow, rfl, rfl⟩

end InMemoryClosureStore

end Vertz.Server.Auth

/-!
## The roles of users on resources

`getEffectiveRole` collects the roles a user has on a resource and those
inherited from its ancestors, and returns the most permissive one: the
first of them in the role order of the entity.
-/

namespace Vertz.Server.Auth

structure RoleAssignment where
  userId : String
  resource : ResourceRef
  role : String
  deriving DecidableEq, Repr

structure InMemoryRoleAssignmentStore where
  assignments : List RoleAssignment := []
  deriving DecidableEq, Repr

namespace InMemoryRoleAssignmentStore

def assign (store : InMemoryRoleAssignmentStore) (assignment : RoleAssignment) :
    InMemoryRoleAssignmentStore :=
  if assignment ∈ store.assignments then store
  else ⟨store.assignments ++ [assignment]⟩

def revoke (store : InMemoryRoleAssignmentStore) (assignment : RoleAssignment) :
    InMemoryRoleAssignmentStore :=
  ⟨store.assignments.filter (· ≠ assignment)⟩

def getRoles (store : InMemoryRoleAssignmentStore) (userId : String) (resource : ResourceRef) :
    List String :=
  (store.assignments.filter fun a => a.userId = userId ∧ a.resource = resource).map (·.role)

def getRolesForUser (store : InMemoryRoleAssignmentStore) (userId : String) :
    List RoleAssignment :=
  store.assignments.filter (·.userId = userId)

/-- The roles that are inherited from one ancestor. -/
def inheritedRoles (store : InMemoryRoleAssignmentStore) (userId : String)
    (resource : ResourceRef) (accessDef : AccessDefinition) (ancestor : ClosureEntry) :
    List String :=
  if ancestor.depth = 0 then []
  else (store.getRoles userId ancestor.resource).filterMap fun ancestorRole =>
    present (resolveInheritedRole ancestor.resource.type ancestorRole resource.type accessDef)

/-- The direct roles and the inherited ones. -/
def candidateRoles (store : InMemoryRoleAssignmentStore) (userId : String)
    (resource : ResourceRef) (accessDef : AccessDefinition)
    (closureStore : InMemoryClosureStore) : List String :=
  store.getRoles userId resource ++
    (closureStore.getAncestors resource).flatMap (store.inheritedRoles userId resource accessDef)

/-- The least position of a candidate in the order, or its length. -/
def bestIndex (roleOrder : List String) (candidates : List String) : ℕ :=
  candidates.foldl
    (fun best role =>
      match roleOrder.idxOf? role with
      | some idx => if idx < best then idx else best
      | none => best)
    roleOrder.length

def getEffectiveRole (store : InMemoryRoleAssignmentStore) (userId : String)
    (resource : ResourceRef) (accessDef : AccessDefinition)
    (closureStore : InMemoryClosureStore) : Option String :=
  match accessDef.roles.get? resource.type with
  | none => none
  | some roleOrder =>
    if roleOrder.isEmpty then none
    else
      let candidates := store.candidateRoles userId resource accessDef closureStore
      if candidates.isEmpty then none
      else roleOrder[bestIndex roleOrder candidates]?

end InMemoryRoleAssignmentStore

end Vertz.Server.Auth
