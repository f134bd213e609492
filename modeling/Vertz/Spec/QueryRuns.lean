import Vertz.Lib.Run
import Vertz.Ui.Query.Query
import Vertz.Ui.Query.Cache

/-!
# `Vertz.Spec.QueryRuns`: queries, their cache and their responses

## Queries, responses and mutation events in any order

A run starts without queries. Its steps create and dispose queries, change
their dependencies, refetch them (by hand, by polling), fire their
debounce timers, settle requests, run the handlers of settled ones, emit
mutation events and evict cache entries, each at any time.

`FreshEntries` is about the cache: an entry that is not stale comes from a
request that started after the last event. A step is `Prompt` when it
stores no response that an event has overtaken.
-/

namespace Vertz.Spec

open Vertz.Ui.Query

variable {V E : Type}

/-- What can happen next on a page. -/
inductive ClientStep (V E : Type) where
  | query (options : QueryOptions) (thunk : Thunk)
  | dependency (i : ℕ) (thunk : Thunk)
  | refetch (i : ℕ) (thunk : Thunk)
  | debounced (i : ℕ)
  | settle (promise : ℕ) (outcome : Except E V)
  | react (position : ℕ)
  | emit (entityType : String) (thunks : ℕ → Thunk)
  | dispose (i : ℕ)
  | evict (key : String)

def clientStep (client : Client V E) : ClientStep V E → Client V E
  | .query options thunk => client.query options thunk
  | .dependency i thunk => client.rerun i thunk
  | .refetch i thunk => client.refetch i thunk
  | .debounced i => client.debounced i
  | .settle promise outcome => client.settle promise outcome
  | .react position => client.react position
  | .emit entityType thunks => client.emit entityType thunks
  | .dispose i => client.dispose i
  | .evict key => client.evict key

/-- An entry of an entity-backed query that is not stale comes from a
request that started after the latest event. -/
def FreshEntries (client : Client V E) : Prop :=
  ∀ key entry entityType, client.cache.get? key = some entry → entry.entity = some entityType →
    client.isCachedEntryStale key (some entityType) = false →
      ∃ request, client.requests[entry.response.promise]? = some request ∧
        request.started entityType = client.bus.getVersion entityType

/-- No event has overtaken the response that a reaction stores. -/
def Prompt (client : Client V E) : ClientStep V E → Prop
  | .react position => ∀ reaction request value q entityType,
      client.reactions[position]? = some reaction →
      client.requests[reaction.promise]? = some request → request.outcome = some (.ok value) →
      client.queries[reaction.query]? = some q → reaction.id = q.fetchId →
      q.entityMeta = some entityType →
        request.started entityType = client.bus.getVersion entityType
  | _ => True

end Vertz.Spec

/-!
## Which response a query shows

`Ordered` is the promise about one step: the response of a request for
another key than the current one changes nothing, and a query all of whose
promises have settled shows data of its current key.

A run of the effect takes one of five paths (`Path`), and only joining and
fetching give the query a new `fetchId`. `CarefulRun` is what the others
need instead, and a rejected request needs that the query shows nothing
older.
-/

namespace Vertz.Spec

open Vertz.Lib Vertz.Ui.Query

variable {V E : Type}

/-- The key a request was started for. -/
def requestKey (client : Client V E) (promise : ℕ) : Option String :=
  (client.requests[promise]?).map Request.key

/-- Data of the key is shown, or none. -/
def ShowsKey (client : Client V E) (q : QueryInstance V E) (key : String) : Prop :=
  ∀ response ∈ q.rawData, requestKey client response.promise = some key

/-- A request whose response would still be taken is waited for. -/
def Waiting (client : Client V E) (i : ℕ) (q : QueryInstance V E) : Prop :=
  ∃ reaction ∈ client.reactions, reaction.query = i ∧ reaction.id = q.fetchId

/-- Every promise of a query has settled and no timer is pending. -/
def AllSettled (client : Client V E) (i : ℕ) (q : QueryInstance V E) : Prop :=
  q.debounceTimer = none ∧ ∀ reaction ∈ client.reactions, reaction.query ≠ i

/-- A response for another key leaves `data`, `error` and `loading` alone. -/
def IgnoresOther (client : Client V E) : ClientStep V E → Prop
  | .react position => ∀ reaction q q', client.reactions[position]? = some reaction →
      client.queries[reaction.query]? = some q →
      requestKey client reaction.promise ≠ some q.resolveCurrentCacheKey →
      (client.react position).queries[reaction.query]? = some q' →
        q'.rawData = q.rawData ∧ q'.error = q.error ∧ q'.loading = q.loading
  | _ => True

/-- A query whose promises have all settled shows its current key. -/
def ShowsCurrent (client : Client V E) : Prop :=
  ∀ i q, client.queries[i]? = some q → q.disposed = false → AllSettled client i q →
    ShowsKey client q q.resolveCurrentCacheKey

def Ordered (client : Client V E) (step : ClientStep V E) : Prop :=
  IgnoresOther client step ∧ ShowsCurrent (clientStep client step)

/-- What a run of the effect does. -/
inductive Path where
  | join | null | serve | debounce | fetch
  deriving DecidableEq, Repr

/-- A query once its thunk was called. -/
def called (q : QueryInstance V E) : Thunk → QueryInstance V E
  | .null depHash => { q with depHash := depHash }
  | .promise depHash => { q with depHash := depHash }.prepare none
  | .descriptor depHash key entity =>
    { q with depHash := depHash, entityMeta := q.entityMeta.or entity }.prepare (some key)

/-- The path once a request has gone out. -/
def pathStarted (client : Client V E) (q : QueryInstance V E) (effectKey : Option String) : Path :=
  let key := q.resolveCurrentCacheKey
  if (client.derivedInflight q effectKey key).isSome then .join
  else if (client.cacheHit q effectKey key).isSome then .serve
  else if q.debounce then .debounce
  else .fetch

def path (client : Client V E) (q : QueryInstance V E) (thunk : Thunk) : Path :=
  match thunk with
  | .null _ => .null
  | .promise _ => pathStarted client (called q thunk) none
  | .descriptor _ key _ => pathStarted client (called q thunk) (some key)

/-- A run of the effect is careful when it leaves no request or timer of
another key than the one it ends with. -/
def CarefulRun (client : Client V E) (i : ℕ) (q : QueryInstance V E) (thunk : Thunk) : Prop :=
  match client.customInflight q with
  | some (_, key) => key = q.resolveCurrentCacheKey
  | none =>
    let key := (called q thunk).resolveCurrentCacheKey
    let path := path client q thunk
    -- a path that does not start or join a fetch leaves the current one current
    (path ≠ .join → path ≠ .fetch → ∀ reaction ∈ client.reactions,
      reaction.query = i → reaction.id = q.fetchId → reaction.key = key) ∧
    -- a path that neither clears nor sets the timer leaves it pending
    (path ≠ .null → path ≠ .debounce → ∀ timer ∈ q.debounceTimer, timer.2 = key) ∧
    -- a thunk that is not ready leaves the data
    (path = .null → ShowsKey client q key ∨ Waiting client i q)

def CarefulRerun (client : Client V E) (i : ℕ) (thunk : Thunk) : Prop :=
  ∀ q ∈ client.queries[i]?, q.disposed = false → CarefulRun client i q thunk

def CarefulRefetch (client : Client V E) (i : ℕ) (thunk : Thunk) : Prop :=
  ∀ q ∈ client.queries[i]?, CarefulRerun (client.clearKey q.resolveCurrentCacheKey) i thunk

def CarefulClientStep (client : Client V E) : ClientStep V E → Prop
  | .dependency i thunk => CarefulRerun client i thunk
  | .refetch i thunk => CarefulRefetch client i thunk
  | .emit entityType thunks =>
    Along (fun client i => client.refetch i (thunks i))
      (fun client i => CarefulRefetch client i (thunks i))
      { client with bus := client.bus.bump entityType } (client.bus.subscribers entityType)
  | .react position => ∀ reaction request q error, client.reactions[position]? = some reaction →
      client.requests[reaction.promise]? = some request → request.outcome = some (.error error) →
      client.queries[reaction.query]? = some q → reaction.id = q.fetchId →
        ShowsKey client q reaction.key ∨ q.debounceTimer.isSome
  | _ => True

end Vertz.Spec

/-!
## The registry of fetches in flight

A fetch is registered under its key until it settles. `Spares` says that a
step is not the deliberate end of a registration, `KeepsRegistered` is the
promise about one step and `StaysRegistered` the one about whole runs. A
step is an `OwnKey` step when the handlers it runs find no other promise
under their key.
-/

namespace Vertz.Spec

open Vertz.Lib Vertz.Ui.Query

variable {V E : Type}

def Unsettled (client : Client V E) (promise : ℕ) : Prop :=
  (client.requests[promise]?).bind Request.outcome = none

def SparesRefetch (client : Client V E) (key : String) (i : ℕ) : Prop :=
  ∀ q ∈ client.queries[i]?, q.resolveCurrentCacheKey ≠ key

/-- No query of the key is refetched, and none that fetches it is disposed. -/
def Spares (client : Client V E) (key : String) : ClientStep V E → Prop
  | .refetch i _ => SparesRefetch client key i
  | .emit entityType thunks =>
    Along (fun client i => client.refetch i (thunks i))
      (fun client i => SparesRefetch client key i)
      { client with bus := client.bus.bump entityType } (client.bus.subscribers entityType)
  | .dispose i => ∀ q ∈ client.queries[i]?, key ∉ q.inflightKeys
  | _ => True

/-- What the registry owes a fetch at a step. -/
structure KeepsRegistered (client : Client V E) (step : ClientStep V E) : Prop where
  /-- A promise that has settled takes only its own registration away. -/
  removes : ∀ position reaction key promise, step = .react position →
    client.reactions[position]? = some reaction → client.inflight.get? key = some promise →
      promise ≠ reaction.promise → (clientStep client step).inflight.get? key = some promise
  stays : ∀ key promise, client.inflight.get? key = some promise → Spares client key step →
    Unsettled (clientStep client step) promise →
      (clientStep client step).inflight.get? key = some promise
  /-- Who starts a fetch for a registered key waits for the registered promise. -/
  joins : ∀ key promise, client.inflight.get? key = some promise → Spares client key step →
    ∀ reaction ∈ (clientStep client step).reactions.drop client.reactions.length,
      reaction.key = key → reaction.promise = promise

/-- A registered fetch stays registered for as long as it is unsettled and
not superseded. -/
def StaysRegistered (steps : List (ClientStep V E)) : Prop :=
  ∀ before during, before ++ during <+: steps → ∀ key promise,
    (before.foldl clientStep {}).inflight.get? key = some promise →
    Along clientStep (fun client step => Spares client key step)
      (before.foldl clientStep {}) during →
    Unsettled ((before ++ during).foldl clientStep {}) promise →
      ((before ++ during).foldl clientStep {}).inflight.get? key = some promise

/-- The handlers of a settled promise find their own promise under their
key, or none. -/
def OwnKey (client : Client V E) : ClientStep V E → Prop
  | .react position => ∀ reaction q, client.reactions[position]? = some reaction →
      ¬ Unsettled client reaction.promise → client.queries[reaction.query]? = some q →
        ∀ promise ∈ client.inflight.get? reaction.key, promise = reaction.promise
  | _ => True

end Vertz.Spec

/-!
## A cache and the holders of its keys

Queries hold keys: a holder retains a key and releases it later. The cache
counts them. `lost` are the held keys whose count was erased, by `delete`
or by an eviction; a key stays lost until its last holder is gone. Nothing
in the cache reads `holders` or `lost`.
-/

namespace Vertz.Spec.EvictionRuns

open Vertz.Ui.Query

variable {V : Type}

structure HeldCache (V : Type) where
  cache : MemoryCache V
  /-- Who holds which key, once for each time it was retained. -/
  holders : List (ℕ × String)
  lost : List String

def HeldCache.start (maxSize : Option MaxSize) : HeldCache V := ⟨.new maxSize, [], []⟩

/-- How often a key is held. -/
def HeldCache.held (s : HeldCache V) (key : String) : ℕ := s.holders.countP fun h => h.2 = key

def HeldCache.live (s : HeldCache V) (key : String) : Bool := decide (0 < s.held key)

inductive CacheOp (V : Type) where
  | get (key : String)
  | set (key : String) (value : V) (version : Option ℕ)
  | delete (key : String)
  | retain (holder : ℕ) (key : String)
  | release (holder : ℕ) (key : String)

/-- The keys that writing a key evicts. -/
def evicted (c : MemoryCache V) (key : String) (value : V) (version : Option ℕ) : List String :=
  (c.write key value version)._store.keys.filter fun k => !(c.set key value version).stored k

def HeldCache.apply (s : HeldCache V) : CacheOp V → HeldCache V
  | .get key => { s with cache := (s.cache.get key).1 }
  | .set key value version =>
    { s with
      cache := s.cache.set key value version
      lost := s.lost ++ (evicted s.cache key value version).filter s.live }
  | .delete key =>
    { s with
      cache := s.cache.delete key
      lost := s.lost ++ [key].filter s.live }
  | .retain holder key =>
    { s with cache := s.cache.retain key, holders := (holder, key) :: s.holders }
  | .release holder key =>
    let holders := s.holders.erase (holder, key)
    { cache := s.cache.release key
      holders := holders
      lost := s.lost.filter fun k => holders.any fun h => h.2 = k }

/-- A holder releases what it has retained. -/
def Honest (s : HeldCache V) : CacheOp V → Prop
  | .release holder key => (holder, key) ∈ s.holders
  | _ => True

/-- No key is set that was deleted or evicted while it was held, before its
holders have released it. -/
def Careful (s : HeldCache V) : CacheOp V → Prop
  | .set key _ _ => key ∉ s.lost
  | _ => True

/-- In the course of writing `key`, a held key is evicted only when every
other stored key is held, apart from `key`. -/
def EvictsUnheldFirst (s : HeldCache V) (key : String) (written : MemoryCache V) : Prop :=
  ∀ c c', Relation.ReflTransGen (fun c c' => c.evictStep key = some c') written c →
    c.evictStep key = some c' → ∀ k, c.stored k = true → c'.stored k = false → s.live k = true →
      ∀ k', c.stored k' = true → k' ≠ k → k' ≠ key → s.live k' = true

/-- What the cache owes its users at a step. -/
structure Keeps (s : HeldCache V) (op : CacheOp V) : Prop where
  limit : (s.apply op).cache._maxSize = s.cache._maxSize
  bounded : ∀ key value version, op = .set key value version → ∀ limit,
    s.cache._maxSize = some limit → ((s.apply op).cache.size : ℚ≥0) ≤ limit
  orphans : ∀ key, ((s.apply op).cache._orphans.get? key).isSome →
    (s.apply op).cache.stored key = true
  evicts : ∀ key value version, op = .set key value version →
    EvictsUnheldFirst s key (s.cache.write key value version)

end Vertz.Spec.EvictionRuns
