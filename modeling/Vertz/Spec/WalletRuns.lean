import Vertz.Lib.Run
import Vertz.Spec.AccessDecision

/-!
# `Vertz.Spec.WalletRuns`: consumption against wallet stores

## Access contexts over an in-memory wallet store

The wallet calls go to an `InMemoryWalletStore`, each atomically, and
every other store call has its fixed reply. A `Pool` runs any number of
calls of contexts at once, one store call of one of them at a time.
-/

namespace Vertz.Spec

open Vertz.Lib
open Vertz.Server.Auth InMemoryWalletStore

/-- The calls that do not go to the wallet store. -/
def isConfigCall : StoreOp → Bool
  | .getConsumption _ => false
  | .consume _ _ _ => false
  | .unconsume _ _ => false
  | _ => true

/-- One store call. -/
def handleStore (reply : Replies) (op : stores.Op) (wallets : InMemoryWalletStore) :
    stores.Reply op × InMemoryWalletStore :=
  match op with
  | .getConsumption wallet => (.ok (wallets.getConsumption wallet), wallets)
  | .consume wallet limit amount =>
    (.ok (wallets.consume wallet limit amount).1, (wallets.consume wallet limit amount).2)
  | .unconsume wallet amount => (.ok (), wallets.unconsume wallet amount)
  | op => (reply op, wallets)

/-- What a wallet has consumed. -/
def consumedAt (wallets : InMemoryWalletStore) (k : String) : ℚ := (wallets k).getD 0

/-- No wallet has consumed a negative amount. -/
def Nonnegative (wallets : InMemoryWalletStore) : Prop := ∀ k, 0 ≤ consumedAt wallets k

/-! ### Limits -/

variable (reply : Replies) (config : AccessContextConfig)

/-- The limits of a billing level. -/
def LevelLimits (entitlement : String) (entry : ChainEntry) (limits : List LimitConsumption) : Prop :=
  evalExcept reply (resolveAllLimitConsumptions config entry.org entitlement entry.planId
    entry.subscription entry.overrides) = .ok limits

/-- A limit that a call of the app can consume from. -/
def IsLimit (lc : LimitConsumption) : Prop :=
  ∃ entitlement org entry limits,
    evalExcept reply (resolveChainEntry config entitlement org) = .ok (some entry) ∧
    LevelLimits reply config entitlement entry limits ∧ lc ∈ limits

/-- A wallet without overage holds at most its effective limit, and where
overage is capped its cost is at most the cap. -/
def WithinLimits (wallets : InMemoryWalletStore) : Prop :=
  ∀ lc, IsLimit reply config lc →
    (lc.overage = none → lc.effectiveMax ≠ -1 →
      consumedAt wallets (key lc.wallet) ≤ lc.effectiveMax) ∧
    (∀ overage cap, lc.overage = some overage → overage.cap = some cap → lc.effectiveMax ≠ -1 →
      (overageCost overage
        (max 0 (consumedAt wallets (key lc.wallet) - lc.effectiveMax))).gt cap
        = false)

/-! ### Calls at once -/

inductive CallKind where
  | canAndConsume
  | unconsume
  deriving DecidableEq, Repr

/-- A call on an access context of the app, for some user and tenant. -/
structure Call where
  kind : CallKind
  userId : Option String
  tenantLevel : Option String
  entitlement : String
  resource : Option ResourceRef
  amount : ℚ
  deriving DecidableEq

def Call.program (call : Call) : Program stores Unit :=
  let config := { config with userId := call.userId, tenantLevel := call.tenantLevel }
  match call.kind with
  | .canAndConsume => do
      let _ ← (canAndConsume config call.entitlement call.resource call.amount).run
      return ()
  | .unconsume => do
      let _ ← (unconsume config call.entitlement call.resource call.amount).run
      return ()

/-- A call under way, with what it last read from a wallet. -/
structure Thread where
  program : Program stores Unit
  lastRead : Option (WalletRef × ℚ)

structure Pool where
  wallets : InMemoryWalletStore
  threads : List Thread

def Pool.start (wallets : InMemoryWalletStore) (calls : List Call) : Pool :=
  ⟨wallets, calls.map fun call => ⟨call.program config, none⟩⟩

/-- What a thread remembers after a call. -/
def noteRead (op : stores.Op) (result : stores.Reply op) (lastRead : Option (WalletRef × ℚ)) :
    Option (WalletRef × ℚ) :=
  match op, result with
  | .getConsumption wallet, .ok (consumed : ℚ) => some (wallet, consumed)
  | _, _ => lastRead

/-- The next store call of one thread. -/
def Pool.step (pool : Pool) (i : ℕ) : Pool :=
  match pool.threads[i]? with
  | some ⟨.call op next, lastRead⟩ =>
    let handled := handleStore reply op pool.wallets
    ⟨handled.2, pool.threads.set i ⟨next handled.1, noteRead op handled.1 lastRead⟩⟩
  | _ => pool

/-- A call consumes from a wallet with an overage cap only while the
wallet holds no more than the call has read from it. -/
def ReadsCurrent (pool : Pool) (i : ℕ) : Prop :=
  ∀ wallet limit amount next lastRead,
    pool.threads[i]? = some ⟨.call (.consume wallet limit amount) next, lastRead⟩ →
    ∀ lc overage, IsLimit reply config lc → lc.wallet = wallet → lc.overage = some overage →
      overage.cap.isSome →
      ∀ read, lastRead = some (wallet, read) →
        consumedAt pool.wallets (key wallet) ≤ read

/-- What the calls and the limits have to be like for the wallets to stay
within them. -/
structure FairCalls (calls : List Call) : Prop where
  /-- No call takes back a negative amount. -/
  amounts : ∀ call ∈ calls, 0 ≤ call.amount
  /-- Different wallets have different keys. -/
  keys : ∀ lc lc', IsLimit reply config lc → IsLimit reply config lc' →
    key lc.wallet = key lc'.wallet → lc.wallet = lc'.wallet
  /-- More overage costs no less. -/
  prices : ∀ lc overage, IsLimit reply config lc → lc.overage = some overage →
    overage.cap.isSome → 0 ≤ overage.amount ∧ 0 ≤ overage.per

end Vertz.Spec

/-!
## One consumption, with stores that may fail

A call of `canAndConsume` runs against an `InMemoryWalletStore` and
stores with fixed answers. `Failures` decides which of its store calls
fail. A `Tally` remembers whether an amount was counted, whether a call
failed, and which wallets a failed rollback left as they were.
-/

namespace Vertz.Spec

open Vertz.Lib
open Vertz.Server.Auth

/-- What the stores hold. -/
abbrev Answers := (op : StoreOp) → op.Result

def Answers.replies (answers : Answers) : Replies := fun op => .ok (answers op)

structure Tally where
  wallets : InMemoryWalletStore
  counted : Bool
  failed : Bool
  /-- The keys whose `unconsume` failed. -/
  notUndone : List String

/-- Whether a call has counted an amount. -/
def hasCounted (op : stores.Op) (result : stores.Reply op) : Bool :=
  match op, result with
  | .consume _ _ _, .ok (success : Bool) => success
  | _, _ => false

def handleTally (reply : Replies) (op : stores.Op) (tally : Tally) : stores.Reply op × Tally :=
  let handled := handleStore reply op tally.wallets
  (handled.1, { tally with
    wallets := handled.2, counted := tally.counted || hasCounted op handled.1 })

/-- The key a call takes an amount back from. -/
def undoneKey : stores.Op → List String
  | .unconsume wallet _ => [InMemoryWalletStore.key wallet]
  | _ => []

/-- A call that fails leaves the stores as they were. -/
def Tally.fail (tally : Tally) (op : stores.Op) : Tally :=
  { tally with failed := true, notUndone := tally.notUndone ++ undoneKey op }

/-- The error of a call, from the number of the calls before it and the
tally so far; `none` for a call that does not fail. -/
abbrev Failures := stores.Op → ℕ → Tally → Option StoreError

structure Trial where
  tally : Tally
  calls : ℕ

def handleTrial (reply : Replies) (failures : Failures) (op : stores.Op) (trial : Trial) :
    stores.Reply op × Trial :=
  match failures op trial.calls trial.tally with
  | some error => (.error error, ⟨trial.tally.fail op, trial.calls + 1⟩)
  | none =>
    let handled := handleTally reply op trial.tally
    (handled.1, ⟨handled.2, trial.calls + 1⟩)

def Trial.start (wallets : InMemoryWalletStore) : Trial := ⟨⟨wallets, false, false, []⟩, 0⟩

/-- Once an amount was counted, only the calls of a rollback fail. -/
def FailsEarly (failures : Failures) : Prop :=
  ∀ op calls tally, tally.counted = true → undoneKey op = [] → failures op calls tally = none

/-! ### The limits of an entitlement -/

variable (reply : Replies) (config : AccessContextConfig)

/-- What the layers before the limits decide. -/
structure LayersDecide (entitlement : String) (resource resolvedOrg : Option ResourceRef)
    (tenantOverrides : Option TenantOverrides) (chain : Option (List AncestorChainEntry))
    (decision : Bool) : Prop where
  org : evalExcept reply (resolveOrg config resource) = .ok resolvedOrg
  overrides : evalExcept reply (orgOverrides config resolvedOrg) = .ok tenantOverrides
  ancestors : evalExcept reply (orgChain config resolvedOrg) = .ok chain
  allowed : evalExcept reply (checkLayers1to3 config entitlement resource resolvedOrg
    tenantOverrides chain) = .ok decision

/-- The context has what it takes to count. -/
def hasWallets : Bool := config.walletStore && config.subscriptionStore && config.orgResolver

/-- The limits on every billing level of a chain, in order. -/
def chainLimits (entitlement : String) (chain : List ChainEntry) : List LimitConsumption :=
  chain.flatMap fun entry =>
    match evalExcept reply (resolveAllLimitConsumptions config entry.org entitlement entry.planId
      entry.subscription entry.overrides) with
    | .ok limits => limits
    | .error _ => []

/-- The limits with a finite maximum. -/
def finiteLimits (limits : List LimitConsumption) : List LimitConsumption :=
  limits.filter (·.effectiveMax ≠ -1)

/-- The finite limits that an entitlement has on a resource. -/
def ResourceLimits (entitlement : String) (resource : Option ResourceRef)
    (limits : List LimitConsumption) : Prop :=
  ∃ org chain, evalExcept reply (resolveOrg config resource) = .ok (some org) ∧
    evalExcept reply (buildConsumptionChain config org entitlement) = .ok chain ∧
    limits = finiteLimits (chainLimits reply config entitlement chain)

/-- Whether a limit's cap admits an amount more. -/
def capAdmits (lc : LimitConsumption) (consumed amount : ℚ) : Bool :=
  match lc.overage with
  | some overage =>
    match overage.cap with
    | some cap => !(overageCost overage (max 0 (consumed + amount - lc.effectiveMax))).gt cap
    | none => true
  | none => true

/-- What the store is asked not to pass. -/
def consumeBound (lc : LimitConsumption) : ℚ :=
  if lc.overage.isSome then maxSafeInteger else lc.effectiveMax

/-- The store keys of the wallets of limits. -/
def walletKeys (limits : List LimitConsumption) : List String :=
  limits.map fun lc => InMemoryWalletStore.key lc.wallet

/-- Every one of the keys has consumed the amount more, and no other. -/
def Increased (keys : List String) (amount : ℚ) (before after : InMemoryWalletStore) : Prop :=
  ∀ k, consumedAt after k = if k ∈ keys then consumedAt before k + amount else consumedAt before k

/-- What a call of `canAndConsume` may leave behind: without success every
wallet holds what it held, up to a failed rollback; with success every
finite limit holds the amount more, unless the context is open to failed
calls and one failed before anything was counted. -/
def AllOrNothing (entitlement : String) (resource : Option ResourceRef) (amount : ℚ)
    (before : InMemoryWalletStore) (result : Except StoreError Bool) (after : Tally) : Prop :=
  (result ≠ .ok true → Increased after.notUndone amount before after.wallets) ∧
  (result = .ok true →
    (∀ limits, ResourceLimits reply config entitlement resource limits →
      Increased (walletKeys limits) amount before after.wallets) ∨
    (config.cloudFailMode = some .open ∧ after.failed = true ∧
      Increased [] amount before after.wallets))

end Vertz.Spec

/-!
## Shown available, and taken

`can` shows an entitlement available when its limits have room, and
`canAndConsume` takes one unit from the same limits. Here both run on the
same stores, none of which fails.
-/

namespace Vertz.Spec

open Vertz.Lib
open Vertz.Server.Auth

/-- A computation returns `true` when it runs against the stores. -/
def ReturnsTrue (answers : Answers) (wallets : InMemoryWalletStore) (p : StoreM Bool) : Prop :=
  (p.run.run (handleStore answers.replies) wallets).1 = .ok true

/-- What every store call replies with while the wallets stay as they are. -/
def repliesAt (answers : Answers) (wallets : InMemoryWalletStore) : Replies := fun op =>
  (handleStore answers.replies op wallets).1

/-! ### One limit -/

/-- `can` finds room in a limit. -/
def HasRoom (lc : LimitConsumption) (consumed : ℚ) : Bool :=
  checkLimitStates [⟨lc.wallet.entitlement, lc.effectiveMax, consumed, lc.overage⟩]

/-- A limit takes an amount. -/
def Admits (lc : LimitConsumption) (consumed amount : ℚ) : Bool :=
  lc.effectiveMax = -1 || (lc.effectiveMax ≠ 0 && capAdmits lc consumed amount
    && decide (consumed + amount ≤ consumeBound lc))

/-- Room for something is room for a unit: `consumed` is what the wallet
holds, and `counted` what it holds when the unit is taken. -/
def BoundaryAgrees (lc : LimitConsumption) (consumed counted : ℚ) : Prop :=
  lc.effectiveMax = -1 ∨ lc.effectiveMax = 0 ∨
    match lc.overage with
    | none => consumed < lc.effectiveMax ↔ counted + 1 ≤ lc.effectiveMax
    | some overage =>
      match overage.cap with
      | none => counted + 1 ≤ maxSafeInteger
      | some cap =>
        (consumed < lc.effectiveMax ∨
          (overageCost overage (consumed - lc.effectiveMax)).ge cap = false) ↔
        ((overageCost overage (max 0 (counted + 1 - lc.effectiveMax))).gt cap = false ∧
          counted + 1 ≤ maxSafeInteger)

/-- What a wallet holds when its turn comes, after one unit for each of the
limits before it. -/
def countedBefore (wallets : InMemoryWalletStore) (amount : ℚ) (before : List LimitConsumption)
    (lc : LimitConsumption) : ℚ :=
  consumedAt wallets (InMemoryWalletStore.key lc.wallet) + amount *
    (walletKeys (finiteLimits before)).count (InMemoryWalletStore.key lc.wallet)

/-! ### All limits -/

variable (reply : Replies) (config : AccessContextConfig)

def billingLevels (org : ResourceRef) : Option (List AncestorChainEntry) → List ResourceRef
  | some chain => chain.map fun entry => ⟨entry.type, entry.id⟩
  | none => [org]

/-- The plan whose limits `can` shows at a level. -/
def shownPlan (ancestors : Option (List AncestorChainEntry)) (level : ResourceRef)
    (subscription : Subscription) : Option String :=
  present (resolveEffectivePlan (some subscription) config.accessDef.plans
    (if ancestors.isSome then config.accessDef.levelDefault level.type
      else config.accessDef.defaultPlan) config.now)

/-- The plan from whose limits `canAndConsume` takes. -/
def takenPlan (level : ResourceRef) (subscription : Subscription) : Option String :=
  present (resolveEffectivePlan (some subscription) config.accessDef.plans
    (if level.type = "" then some "" else config.accessDef.levelDefault level.type) config.now)

/-- Both look at the same limits: at every level they resolve one plan, and
a plan without a limit on the entitlement has none in its version either. -/
def SameLimits (entitlement : String) (resource : Option ResourceRef) : Prop :=
  ∀ org overrides ancestors,
    LayersDecide reply config entitlement resource (some org) overrides ancestors true →
    ∀ level ∈ billingLevels org ancestors, ∀ subscription,
      reply (.getSubscription level.type level.id) = .ok (some subscription) →
      shownPlan config ancestors level subscription = takenPlan config level subscription ∧
      (ancestors = none → ∀ planId, takenPlan config level subscription = some planId →
        planLimits config planId entitlement = false →
        evalExcept reply (resolveAllLimitConsumptions config level entitlement planId subscription
          overrides) = .ok [])

/-- The boundary of every limit agrees, or some limit has no room and some
limit does not take a unit. -/
def BoundariesAgree (wallets : InMemoryWalletStore) (limits : List LimitConsumption) : Prop :=
  (∀ before lc after, limits = before ++ lc :: after →
    BoundaryAgrees lc (consumedAt wallets (InMemoryWalletStore.key lc.wallet))
      (countedBefore wallets 1 before lc)) ∨
  ((∃ lc ∈ limits, HasRoom lc (consumedAt wallets (InMemoryWalletStore.key lc.wallet)) = false) ∧
    ∃ before lc after, limits = before ++ lc :: after ∧
      Admits lc (countedBefore wallets 1 before lc) 1 = false)

/-- A layer denies, nothing is limited, or the resource has a billing level
and the boundaries of its limits agree. -/
def UnitShownAsTaken (wallets : InMemoryWalletStore) (entitlement : String)
    (resource : Option ResourceRef) : Prop :=
  (∀ org overrides ancestors,
    ¬ LayersDecide reply config entitlement resource org overrides ancestors true) ∨
  hasWallets config = false ∨ config.accessDef.limitKeys entitlement = [] ∨
  ∃ org chain, evalExcept reply (resolveOrg config resource) = .ok (some org) ∧
    evalExcept reply (buildConsumptionChain config org entitlement) = .ok chain ∧ chain ≠ [] ∧
    BoundariesAgree wallets (chainLimits reply config entitlement chain)

end Vertz.Spec

/-!
## Overlapping calls of a cached wallet store

A call is issued, reaches the cloud, and comes back; any number of them
are in flight at once, and reach the cloud and come back in any order. A
call can also fail, before it reached the cloud or after.

`Coherent` says that the cache serves what the cloud wallet holds once no
call is in flight. A step is `Careful` when the cache ends up with what
the wallet holds, or a mutation that reached the cloud is still to come
back.
-/

namespace Vertz.Spec

open Vertz.Server.Auth

variable {W : Type}

inductive WalletCall where
  | getConsumption (wallet : WalletAddress)
  | consume (wallet : WalletAddress) (limit : ℚ) (amount : ℚ := 1)
  | unconsume (wallet : WalletAddress) (amount : ℚ := 1)
  | getBatchConsumption (resourceType resourceId : String) (limitKeys : List String)
      (periodStart periodEnd : ℤ)

namespace WalletCall

def Reply : WalletCall → Type
  | .getConsumption _ => ℚ
  | .consume _ _ _ => ConsumeResult
  | .unconsume _ _ => Unit
  | .getBatchConsumption _ _ _ _ _ => List (String × ℚ)

/-- The cloud executes a call. -/
def perform (inner : InnerStore W) (wallets : W) : (call : WalletCall) → call.Reply × W
  | .getConsumption wallet => (inner.getConsumption wallets wallet, wallets)
  | .consume wallet limit amount => inner.consume wallets wallet limit amount
  | .unconsume wallet amount => ((), inner.unconsume wallets wallet amount)
  | .getBatchConsumption resourceType resourceId limitKeys periodStart periodEnd =>
    (limitKeys.map fun key =>
      (key, inner.getConsumption wallets ⟨⟨resourceType, resourceId, key, periodStart⟩, periodEnd⟩),
      wallets)

/-- The key of the wallet that a call changes. -/
def mutates : WalletCall → Option String
  | .consume wallet _ _ => some (cacheKey wallet)
  | .unconsume wallet _ => some (cacheKey wallet)
  | _ => none

/-- What the cache stores when a call comes back. -/
def stores : (call : WalletCall) → call.Reply → Option (String × ℚ)
  | .getConsumption wallet, value => some (cacheKey wallet, value)
  | .consume wallet _ _, result => some (cacheKey wallet, result.consumed)
  | _, _ => none

/-- The cache after a call came back. -/
def resolved (store : CachedWalletStore) (now : ℤ) :
    (call : WalletCall) → call.Reply → CachedWalletStore
  | .getConsumption wallet, value => store.getConsumptionResolved wallet value now
  | .consume wallet _ _, result => store.consumeResolved wallet result now
  | .unconsume wallet _, _ => store.unconsumeResolved wallet
  | .getBatchConsumption _ _ _ _ _, _ => store

/-- The cache answers a call that need not be issued. -/
def cached (store : CachedWalletStore) (now : ℤ) : WalletCall → Bool
  | .getConsumption wallet => (store.getConsumption wallet now).isSome
  | _ => false

end WalletCall

/-- A call in flight, with its reply once it has reached the cloud. -/
structure CloudCall where
  call : WalletCall
  reply : Option call.Reply

/-- The call has reached the cloud and changed the wallet of the key. -/
def CloudCall.Mutated (pending : CloudCall) (key : String) : Prop :=
  pending.reply.isSome ∧ pending.call.mutates = some key

structure CachedRun (W : Type) where
  store : CachedWalletStore
  wallets : W
  inFlight : List CloudCall

inductive CachedStep where
  | call (call : WalletCall) (now : ℤ)
  | reach (position : ℕ)
  | resolve (position : ℕ) (now : ℤ)
  | reject (position : ℕ)

namespace CachedRun

def start (cacheTtlMs : Option ℚ) (wallets : W) : CachedRun W where
  store := .create cacheTtlMs
  wallets := wallets
  inFlight := []

def step (inner : InnerStore W) (run : CachedRun W) : CachedStep → CachedRun W
  | .call call now =>
    if call.cached run.store now then run
    else { run with inFlight := run.inFlight ++ [⟨call, none⟩] }
  | .reach position =>
    match run.inFlight[position]? with
    | some ⟨call, none⟩ =>
      let (reply, wallets) := call.perform inner run.wallets
      { run with
        wallets := wallets
        inFlight := run.inFlight.set position ⟨call, some reply⟩ }
    | _ => run
  | .resolve position now =>
    match run.inFlight[position]? with
    | some ⟨call, some reply⟩ =>
      { run with
        store := call.resolved run.store now reply
        inFlight := run.inFlight.eraseIdx position }
    | _ => run
  | .reject position => { run with inFlight := run.inFlight.eraseIdx position }

/-- With no call in flight, a read that the cache serves returns what the
wallet has consumed. -/
def Coherent (inner : InnerStore W) (run : CachedRun W) : Prop :=
  run.inFlight = [] → ∀ wallet now value, run.store.getConsumption wallet now = some value →
    value = inner.getConsumption run.wallets wallet

/-- Every wallet with the key has consumed the amount. -/
def Holds (inner : InnerStore W) (run : CachedRun W) (key : String) (value : ℚ) : Prop :=
  ∀ wallet, cacheKey wallet = key → inner.getConsumption run.wallets wallet = value

/-- Beside the call at a position, a mutation of the key has reached the
cloud and is still to come back. -/
def Awaited (run : CachedRun W) (position : ℕ) (key : String) : Prop :=
  ∃ other ∈ run.inFlight.eraseIdx position, other.Mutated key

/-- What a call stores when it comes back is what its wallet holds, and
where a mutation that reached the cloud fails, so is what was cached;
unless another mutation is awaited. -/
def Careful (inner : InnerStore W) (run : CachedRun W) : CachedStep → Prop
  | .call _ _ => True
  | .reach _ => True
  | .resolve position _ => ∀ call reply, run.inFlight[position]? = some ⟨call, some reply⟩ →
      ∀ key value, call.stores reply = some (key, value) →
        run.Holds inner key value ∨ run.Awaited position key
  | .reject position => ∀ pending, run.inFlight[position]? = some pending →
      ∀ key, pending.Mutated key → ∀ entry, run.store.cache key = some entry →
        run.Holds inner key entry.value ∨ run.Awaited position key

end CachedRun

/-- A mutation changes no wallet with another key. -/
structure KeepsOthers (inner : InnerStore W) : Prop where
  consume : ∀ wallets wallet limit amount other, cacheKey other ≠ cacheKey wallet →
    inner.getConsumption (inner.consume wallets wallet limit amount).2 other
      = inner.getConsumption wallets other
  unconsume : ∀ wallets wallet amount other, cacheKey other ≠ cacheKey wallet →
    inner.getConsumption (inner.unconsume wallets wallet amount) other
      = inner.getConsumption wallets other

end Vertz.Spec
