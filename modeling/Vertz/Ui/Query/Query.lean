import Vertz.Ui.Store.OptimisticHandler

/-!
# `Vertz.Ui.Query.Query`: queries that share a cache

The client-side life of `query()` with promise and descriptor thunks: the
effect, the fetches it starts, and what their responses do. Streams,
server rendering, hydration, navigation prefetch and `initialData` are left
out, and `data` is `rawData`.

A promise is its number in the list of requests. A `Reaction` is what
`handleFetchPromise` attaches to one. A response is kept with the promise
it came from, and a request and a cache entry with what the claims about
them speak of: the key and the versions of the bus when a request started,
and the entity type of the query that stored an entry. No function reads
these. An aborted request is one that settles with an error, and a full
cache may drop any entry (`evict`).

What an effect run gets from its thunk is `Thunk`: nothing yet, a promise,
or a descriptor, with the hash of the dependencies it read.
-/

namespace Vertz.Ui.Query

open Vertz.Lib Vertz.Ui.Store

variable {V E : Type}

/-- A value and the promise that resolved with it. -/
structure Response (V : Type) where
  promise : ℕ
  value : V
  deriving DecidableEq, Repr

structure CacheEntry (V : Type) where
  response : Response V
  version : ℕ
  entity : Option String

structure Request (V E : Type) where
  key : String
  started : String → ℕ
  outcome : Option (Except E V) := none

/-- The handlers that `handleFetchPromise` attaches to a promise. -/
structure Reaction where
  promise : ℕ
  query : ℕ
  id : ℕ
  key : String
  deriving DecidableEq, Repr

inductive Thunk where
  | null (depHash : String)
  | promise (depHash : String)
  | descriptor (depHash key : String) (entity : Option String)
  deriving DecidableEq, Repr

/-- A string that is there and not empty. -/
def truthy (s : Option String) : Bool := s.any (· ≠ "")

/-- The options a query is called with, and the key of its thunk. -/
structure QueryOptions where
  key : Option String := none
  baseKey : String
  debounce : Bool := false
  entityMeta : Option String := none
  deriving DecidableEq, Repr

/-- The variables of one call of `query()`. -/
structure QueryInstance (V E : Type) where
  customKey : Option String := none
  baseKey : String
  debounce : Bool := false
  entityMeta : Option String := none
  depHash : String := ""
  currentEffectKey : Option String := none
  rawData : Option (Response V) := none
  loading : Bool := true
  revalidating : Bool := false
  error : Option E := none
  idle : Bool := true
  fetchId : ℕ := 0
  debounceTimer : Option (ℕ × String) := none
  inflightKeys : List String := []
  isFirst : Bool := true
  disposed : Bool := false

def QueryOptions.instance (options : QueryOptions) : QueryInstance V E :=
  { customKey := options.key
    baseKey := options.baseKey
    debounce := options.debounce
    entityMeta := options.entityMeta }

namespace QueryInstance

def getCacheKey (q : QueryInstance V E) : String :=
  q.customKey.getD (if q.depHash ≠ "" then s!"{q.baseKey}:{q.depHash}" else s!"{q.baseKey}:init")

def resolveCurrentCacheKey (q : QueryInstance V E) : String :=
  let effectKey := q.currentEffectKey.getD ""
  if truthy q.currentEffectKey then
    if q.depHash ≠ "" then s!"{effectKey}:{q.depHash}" else effectKey
  else q.getCacheKey

/-- The signals when a fetch starts. -/
def startLoading (q : QueryInstance V E) : QueryInstance V E :=
  if q.rawData.isSome then { q with revalidating := true, error := none }
  else { q with loading := true, error := none }

/-- A fetch is about to start, under the descriptor's key if there is one. -/
def prepare (q : QueryInstance V E) (effectKey : Option String) : QueryInstance V E :=
  { q with idle := false, currentEffectKey := effectKey }

/-- On which runs a cached entry may be served. -/
def shouldCheckCache (q : QueryInstance V E) (effectKey : Option String) : Bool :=
  truthy effectKey || (if q.isFirst then truthy q.customKey else !truthy q.customKey)

end QueryInstance

/-- The queries of a page with what they share. -/
structure Client (V E : Type) where
  bus : MutationEventBus := {}
  cache : Record (CacheEntry V) := .empty
  inflight : Record ℕ := .empty
  requests : List (Request V E) := []
  reactions : List Reaction := []
  queries : List (QueryInstance V E) := []

namespace Client

def currentEntityVersion (client : Client V E) (q : QueryInstance V E) : ℕ :=
  match q.entityMeta with
  | none => 0
  | some entityType => client.bus.getVersion entityType

def isCachedEntryStale (client : Client V E) (key : String) (entity : Option String) : Bool :=
  match entity with
  | none => false
  | some entityType =>
    let cacheVersion := ((client.cache.get? key).map CacheEntry.version).getD 0
    client.bus.getVersion entityType > cacheVersion

def put (client : Client V E) (i : ℕ) (q : QueryInstance V E) : Client V E :=
  { client with queries := client.queries.set i q }

def handleFetchPromise (client : Client V E) (promise i id : ℕ) (key : String) : Client V E :=
  { client with reactions := client.reactions ++ [⟨promise, i, id, key⟩] }

/-- Wait for a request that is in flight for the key. -/
def join (client : Client V E) (i : ℕ) (q : QueryInstance V E) (existing : ℕ) (key : String) :
    Client V E :=
  let q := { q.startLoading with fetchId := q.fetchId + 1, isFirst := false }
  (client.put i q).handleFetchPromise existing i q.fetchId key

def startFetch (client : Client V E) (i : ℕ) (q : QueryInstance V E) (fetchPromise : ℕ)
    (key : String) : Client V E :=
  let q := { q.startLoading with fetchId := q.fetchId + 1 }
  match client.inflight.get? key with
  | some existing => (client.put i q).handleFetchPromise existing i q.fetchId key
  | none =>
    let client := { client with inflight := client.inflight.insert key fetchPromise }
    (client.put i { q with inflightKeys := q.inflightKeys.insert key }).handleFetchPromise
      fetchPromise i q.fetchId key

/-- A request goes out. -/
def request (client : Client V E) (key : String) : Client V E :=
  { client with requests := client.requests ++ [⟨key, client.bus.getVersion, none⟩] }

/-- The first descriptor with an entity subscribes the query. -/
def adoptEntity (client : Client V E) (i : ℕ) (q : QueryInstance V E) (entity : Option String) :
    Client V E × QueryInstance V E :=
  match q.entityMeta, entity with
  | none, some entityType =>
    ({ client with bus := client.bus.subscribe entityType i }, { q with entityMeta := entity })
  | _, _ => (client, q)

/-- The request in flight for a derived key. -/
def derivedInflight (client : Client V E) (q : QueryInstance V E) (effectKey : Option String)
    (key : String) : Option ℕ :=
  if !truthy q.customKey && !truthy effectKey then client.inflight.get? key else none

/-- The cached entry that an effect run may serve. -/
def cacheHit (client : Client V E) (q : QueryInstance V E) (effectKey : Option String)
    (key : String) : Option (CacheEntry V) :=
  if q.shouldCheckCache effectKey && !client.isCachedEntryStale key q.entityMeta then
    client.cache.get? key
  else none

/-- The effect once its request has gone out: join a request in flight,
serve the cache, wait for the debounce timer, or fetch. -/
def fetchOrServe (client : Client V E) (i : ℕ) (q : QueryInstance V E)
    (effectKey : Option String) (promise : ℕ) (key : String) : Client V E :=
  match client.derivedInflight q effectKey key with
  | some existing => client.join i q existing key
  | none =>
    match client.cacheHit q effectKey key with
    | some entry =>
      client.put i
        { q with
          rawData := some entry.response
          loading := false
          error := none
          isFirst := false }
    | none =>
      if q.debounce then
        client.put i { q with isFirst := false, debounceTimer := some (promise, key) }
      else client.startFetch i { q with isFirst := false } promise key

/-- The effect once the thunk has returned a promise or a descriptor. -/
def started (client : Client V E) (i : ℕ) (q : QueryInstance V E) (effectKey : Option String) :
    Client V E :=
  let q := q.prepare effectKey
  let key := q.resolveCurrentCacheKey
  (client.request key).fetchOrServe i q effectKey client.requests.length key

/-- The request in flight for the custom key. -/
def customInflight (client : Client V E) (q : QueryInstance V E) : Option (ℕ × String) :=
  if truthy q.customKey then
    (client.inflight.get? (q.customKey.getD "")).map fun existing => (existing, q.customKey.getD "")
  else none

/-- A run of the query's effect. -/
def effect (client : Client V E) (i : ℕ) (q : QueryInstance V E) (thunk : Thunk) : Client V E :=
  match client.customInflight q with
  | some (existing, key) => client.join i q existing key
  | none =>
    match thunk with
    | .null depHash =>
      client.put i
        { q with depHash := depHash, debounceTimer := none, loading := false, isFirst := false }
    | .promise depHash => client.started i { q with depHash := depHash } none
    | .descriptor depHash key entity =>
      let (client, q) := client.adoptEntity i { q with depHash := depHash } entity
      client.started i q (some key)

/-- The dependencies of a query change. -/
def rerun (client : Client V E) (i : ℕ) (thunk : Thunk) : Client V E :=
  match client.queries[i]? with
  | some q => if q.disposed then client else client.effect i q thunk
  | none => client

/-- What `refetch` clears before it runs the effect. -/
def clearKey (client : Client V E) (key : String) : Client V E :=
  { client with cache := client.cache.erase key, inflight := client.inflight.erase key }

def refetch (client : Client V E) (i : ℕ) (thunk : Thunk) : Client V E :=
  match client.queries[i]? with
  | some q => (client.clearKey q.resolveCurrentCacheKey).rerun i thunk
  | none => client

def emit (client : Client V E) (entityType : String) (thunks : ℕ → Thunk) : Client V E :=
  (client.bus.subscribers entityType).foldl (fun client i => client.refetch i (thunks i))
    { client with bus := client.bus.bump entityType }

/-- A new query, whose effect runs once. -/
def query (client : Client V E) (options : QueryOptions) (thunk : Thunk) : Client V E :=
  let i := client.queries.length
  let q : QueryInstance V E := options.instance
  let client := { client with queries := client.queries ++ [q] }.effect i q thunk
  match options.entityMeta with
  | some entityType => { client with bus := client.bus.subscribe entityType i }
  | none => client

/-- The debounce timer fires. -/
def debounced (client : Client V E) (i : ℕ) : Client V E :=
  match client.queries[i]? with
  | some q =>
    match q.debounceTimer with
    | some (promise, key) => client.startFetch i { q with debounceTimer := none } promise key
    | none => client
  | none => client

/-- The server answers a request. -/
def settle (client : Client V E) (promise : ℕ) (outcome : Except E V) : Client V E :=
  { client with
    requests := client.requests.modify promise fun request =>
      { request with outcome := request.outcome.or (some outcome) } }

/-- The handlers run once the promise has settled. -/
def handle (client : Client V E) (reaction : Reaction) (outcome : Except E V) : Client V E :=
  match client.queries[reaction.query]? with
  | none => client
  | some q =>
    let q := { q with inflightKeys := q.inflightKeys.erase reaction.key }
    let client := { client with inflight := client.inflight.erase reaction.key }
    if reaction.id ≠ q.fetchId then client.put reaction.query q
    else
      match outcome with
      | .ok value =>
        let response := ⟨reaction.promise, value⟩
        let entry := ⟨response, client.currentEntityVersion q, q.entityMeta⟩
        { client with cache := client.cache.insert reaction.key entry }.put reaction.query
          { q with rawData := some response, loading := false, revalidating := false }
      | .error e =>
        client.put reaction.query
          { q with error := some e, loading := false, revalidating := false }

def react (client : Client V E) (position : ℕ) : Client V E :=
  match client.reactions[position]? with
  | none => client
  | some reaction =>
    match (client.requests[reaction.promise]?).bind Request.outcome with
    | none => client
    | some outcome =>
      { client with reactions := client.reactions.eraseIdx position }.handle reaction outcome

def dispose (client : Client V E) (i : ℕ) : Client V E :=
  match client.queries[i]? with
  | some q =>
    { client with
      bus := client.bus.unsubscribe i
      inflight := q.inflightKeys.foldl Record.erase client.inflight }.put i
      { q with
        debounceTimer := none
        fetchId := q.fetchId + 1
        inflightKeys := []
        disposed := true }
  | none => client

/-- The cache makes room. -/
def evict (client : Client V E) (key : String) : Client V E :=
  { client with cache := client.cache.erase key }

end Client

end Vertz.Ui.Query
