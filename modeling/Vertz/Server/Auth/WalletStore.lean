import Vertz.Lib.Program
import Vertz.Server.Auth.DefineAccess

/-!
# `Vertz.Server.Auth.WalletStore`: the stores behind an access context

The context reaches its stores through the operations of `StoreOp`. Every
call of one can fail, and a call that fails leaves the store as it was.
`InMemoryWalletStore` is the wallet store; the other stores are known by
what they reply.
-/

namespace Vertz.Server.Auth

open Vertz.Lib

structure StoreError where
  message : String
  deriving DecidableEq, Repr

/-- The wallet an amount is counted in. -/
structure WalletRef where
  resourceType : String
  resourceId : String
  entitlement : String
  periodStart : ℤ
  deriving DecidableEq, Repr

inductive StoreOp where
  | orgResolver (resource : Option ResourceRef)
  | ancestorResolver (tenantLevel tenantId : String)
  | getEffectiveRole (userId resourceType resourceId : String)
  | getFlag (resourceType resourceId flag : String)
  | getFlags (resourceType resourceId : String)
  | getOverrides (resourceType resourceId : String)
  | getSubscription (resourceType resourceId : String)
  /-- `none` from a store that has no add-ons. -/
  | getAddOns (resourceType resourceId : String)
  | getTenantVersion (resourceType resourceId planId : String)
  | getVersion (planId : String) (version : ℤ)
  | getConsumption (wallet : WalletRef)
  | consume (wallet : WalletRef) (limit amount : ℚ)
  | unconsume (wallet : WalletRef) (amount : ℚ)
  deriving DecidableEq

/-- What an operation returns; for `consume` whether it succeeded. -/
def StoreOp.Result : StoreOp → Type
  | .orgResolver _ => Option ResourceRef
  | .ancestorResolver _ _ => List AncestorChainEntry
  | .getEffectiveRole _ _ _ => Option String
  | .getFlag _ _ _ => Bool
  | .getFlags _ _ => Record Bool
  | .getOverrides _ _ => Option TenantOverrides
  | .getSubscription _ _ => Option Subscription
  | .getAddOns _ _ => Option (List String)
  | .getTenantVersion _ _ _ => Option ℤ
  | .getVersion _ _ => Option PlanSnapshot
  | .getConsumption _ => ℚ
  | .consume _ _ _ => Bool
  | .unconsume _ _ => Unit

/-- The environment of an access context: calls that may fail. -/
def stores : Signature := ⟨StoreOp, fun op => Except StoreError op.Result⟩

/-- A computation that calls the stores and may throw. -/
abbrev StoreM := ExceptT StoreError (Program stores)

/-- Await a store call. -/
def await (op : StoreOp) : StoreM op.Result := ExceptT.mk (Program.perform (σ := stores) op)

/-! ### The in-memory wallet store -/

/-- Consumed amounts by key. -/
abbrev InMemoryWalletStore := String → Option ℚ

namespace InMemoryWalletStore

def key (wallet : WalletRef) : String :=
  wallet.resourceType ++ ":" ++ wallet.resourceId ++ ":" ++ wallet.entitlement ++ ":"
    ++ toString wallet.periodStart

def set (entries : InMemoryWalletStore) (k : String) (consumed : ℚ) : InMemoryWalletStore :=
  fun k' => if k' = k then some consumed else entries k'

def getConsumption (entries : InMemoryWalletStore) (wallet : WalletRef) : ℚ :=
  (entries (key wallet)).getD 0

/-- Check that the amount fits and count it. A missing entry is added
first, also when the amount does not fit. -/
def consume (entries : InMemoryWalletStore) (wallet : WalletRef) (limit amount : ℚ) :
    Bool × InMemoryWalletStore :=
  let consumed := (entries (key wallet)).getD 0
  if consumed + amount > limit then (false, entries.set (key wallet) consumed)
  else (true, entries.set (key wallet) (consumed + amount))

def unconsume (entries : InMemoryWalletStore) (wallet : WalletRef) (amount : ℚ) :
    InMemoryWalletStore :=
  match entries (key wallet) with
  | some consumed => entries.set (key wallet) (max 0 (consumed - amount))
  | none => entries

end InMemoryWalletStore

end Vertz.Server.Auth

/-!
## The cache in front of a wallet store

A method awaits a call of the store behind the cache. What it does before
that call and what it does after are separate definitions: `getConsumption`
looks in the cache first, the `…Resolved` definitions are the rest of a
method after its call came back. `Date.now()` is an argument.

`InnerStore` is the store behind the cache, the cloud wallet.
-/

namespace Vertz.Server.Auth

/-- The wallet of a call, with the end of its period. -/
structure WalletAddress extends WalletRef where
  periodEnd : ℤ
  deriving DecidableEq, Repr

structure ConsumeResult where
  success : Bool
  consumed : ℚ
  limit : ℚ
  remaining : ℚ
  deriving DecidableEq, Repr

/-! ### The store behind the cache -/

structure InnerStore (W : Type) where
  /-- What a wallet has consumed. -/
  getConsumption : W → WalletAddress → ℚ
  consume : W → WalletAddress → ℚ → ℚ → ConsumeResult × W
  unconsume : W → WalletAddress → ℚ → W

/-- The in-memory wallet store behind a cache. -/
def InMemoryWalletStore.inner : InnerStore InMemoryWalletStore where
  getConsumption entries wallet := entries.getConsumption wallet.toWalletRef
  consume entries wallet limit amount :=
    let (success, entries) := entries.consume wallet.toWalletRef limit amount
    let consumed := entries.getConsumption wallet.toWalletRef
    (⟨success, consumed, limit, max 0 (limit - consumed)⟩, entries)
  unconsume entries wallet amount := entries.unconsume wallet.toWalletRef amount

/-! ### The cache -/

structure CacheEntry where
  value : ℚ
  expiresAt : ℚ
  deriving DecidableEq, Repr

structure CachedWalletStore where
  cacheTtlMs : ℚ
  cache : String → Option CacheEntry

def DEFAULT_CACHE_TTL_MS : ℚ := 30000

def cacheKey (wallet : WalletAddress) : String :=
  wallet.resourceType ++ ":" ++ wallet.resourceId ++ ":" ++ wallet.entitlement ++ ":"
    ++ toString wallet.periodStart

namespace CachedWalletStore

def create (cacheTtlMs : Option ℚ) : CachedWalletStore where
  cacheTtlMs := cacheTtlMs.getD DEFAULT_CACHE_TTL_MS
  cache _ := none

/-- `this.cache.set(key, …)` -/
def cacheSet (store : CachedWalletStore) (key : String) (entry : CacheEntry) : CachedWalletStore :=
  { store with cache := fun k => if k = key then some entry else store.cache k }

/-- `this.cache.delete(key)` -/
def cacheDelete (store : CachedWalletStore) (key : String) : CachedWalletStore :=
  { store with cache := fun k => if k = key then none else store.cache k }

/-- The value that `getConsumption` serves without a call of the store. -/
def getConsumption (store : CachedWalletStore) (wallet : WalletAddress) (now : ℤ) : Option ℚ :=
  match store.cache (cacheKey wallet) with
  | some cached => if (now : ℚ) < cached.expiresAt then some cached.value else none
  | none => none

/-- The cache after the call of `getConsumption` resolved. When the call
rejects, the entry that was cached when it started is served, also an
expired one, and the cache stays as it is. -/
def getConsumptionResolved (store : CachedWalletStore) (wallet : WalletAddress) (value : ℚ)
    (now : ℤ) : CachedWalletStore :=
  store.cacheSet (cacheKey wallet) ⟨value, now + store.cacheTtlMs⟩

def consumeResolved (store : CachedWalletStore) (wallet : WalletAddress) (result : ConsumeResult)
    (now : ℤ) : CachedWalletStore :=
  store.cacheSet (cacheKey wallet) ⟨result.consumed, now + store.cacheTtlMs⟩

def unconsumeResolved (store : CachedWalletStore) (wallet : WalletAddress) : CachedWalletStore :=
  store.cacheDelete (cacheKey wallet)

theorem of_cacheSet {store : CachedWalletStore} {key k : String} {entry e : CacheEntry}
    (h : (store.cacheSet key entry).cache k = some e) :
    (k = key ∧ entry = e) ∨ (k ≠ key ∧ store.cache k = some e) := by
  simp only [cacheSet] at h
  split at h
  · next hkey => exact .inl ⟨hkey, Option.some.inj h⟩
  · next hne => exact .inr ⟨hne, h⟩

theorem of_cacheDelete {store : CachedWalletStore} {key k : String} {e : CacheEntry}
    (h : (store.cacheDelete key).cache k = some e) : k ≠ key ∧ store.cache k = some e := by
  simp only [cacheDelete] at h
  split at h
  · cases h
  · next hne => exact ⟨hne, h⟩

end CachedWalletStore

end Vertz.Server.Auth
