import Vertz.Spec.QueryRuns

/-!
# `Vertz.Proofs.QueryOrder`: careful runs show the current key

`QueryReady` is the invariant of one query: what it still waits for, and its
timer, is for its current key, and so is what it shows unless it waits.
`Ready` adds that whatever is kept under a key was requested for that
key. `queryReady_fetch` and `queryReady_keep` are the two kinds of effect
runs, those that give the query a new `fetchId` and those that do not.

`careful_run_ordered` is the result for whole runs. In
`cached_key_overwritten` a dependency changes to a key that is in the cache
while the request for the first key is in flight.
-/

namespace Vertz.Spec

open Vertz.Ui.Query.Client
open Vertz.Lib Vertz.Ui.Query List Option

variable {V E : Type}

structure QueryReady (client : Client V E) (i : ℕ) (q : QueryInstance V E) : Prop where
  current : ∀ reaction ∈ client.reactions, reaction.query = i → reaction.id = q.fetchId →
    reaction.key = q.resolveCurrentCacheKey
  past : ∀ reaction ∈ client.reactions, reaction.query = i → reaction.id ≤ q.fetchId
  timer : ∀ timer ∈ q.debounceTimer, requestKey client timer.1 = some timer.2 ∧
    timer.2 = q.resolveCurrentCacheKey
  data : q.disposed = false → ShowsKey client q q.resolveCurrentCacheKey ∨
    q.debounceTimer.isSome ∨ Waiting client i q

structure Ready (client : Client V E) : Prop where
  inflight : ∀ key promise, client.inflight.get? key = some promise →
    requestKey client promise = some key
  cache : ∀ key entry, client.cache.get? key = some entry →
    requestKey client entry.response.promise = some key
  reactions : ∀ reaction ∈ client.reactions,
    requestKey client reaction.promise = some reaction.key ∧
      reaction.query < client.queries.length
  queries : ∀ i q, client.queries[i]? = some q → QueryReady client i q

namespace Ready

variable {client : Client V E}

/-- Under the invariant a careful step cannot show another key. -/
theorem showsCurrent (h : Ready client) : ShowsCurrent client := by
  intro i q hq hlive hsettled
  rcases (h.queries i q hq).data hlive with hshows | htimer | ⟨reaction, hmem, hquery, -⟩
  · exact hshows
  · rw [hsettled.1] at htimer
    cases htimer
  · exact absurd hquery (hsettled.2 reaction hmem)

end Ready

section Frames

variable {old new : Client V E}

/-- A step that forgets no request. -/
def KeepsRequests (old new : Client V E) : Prop :=
  ∀ promise key, requestKey old promise = some key → requestKey new promise = some key

theorem KeepsRequests.shows (h : KeepsRequests old new) {q q' : QueryInstance V E} {key : String}
    (hdata : q'.rawData = q.rawData) (hshows : ShowsKey old q key) : ShowsKey new q' key :=
  fun response hresponse => h _ _ (hshows response (hdata ▸ hresponse))

theorem QueryReady.frame {i : ℕ} {q : QueryInstance V E} (h : QueryReady old i q)
    (hkeys : KeepsRequests old new)
    (hreactions : ∀ reaction, reaction.query = i →
      (reaction ∈ new.reactions ↔ reaction ∈ old.reactions)) : QueryReady new i q := by
  refine ⟨fun reaction hmem hquery => ?_, fun reaction hmem hquery => ?_, fun timer htimer => ?_,
    fun hlive => ?_⟩
  · exact h.current reaction ((hreactions reaction hquery).mp hmem) hquery
  · exact h.past reaction ((hreactions reaction hquery).mp hmem) hquery
  · exact ⟨hkeys _ _ (h.timer timer htimer).1, (h.timer timer htimer).2⟩
  · rcases h.data hlive with hshows | htimer | ⟨reaction, hmem, hquery, hid⟩
    · exact .inl (hkeys.shows rfl hshows)
    · exact .inr (.inl htimer)
    · exact .inr (.inr ⟨reaction, (hreactions reaction hquery).mpr hmem, hquery, hid⟩)

/-- A step that changes one query and attaches handlers for it alone. -/
theorem Ready.update {i : ℕ} {q' : QueryInstance V E} (h : Ready old)
    (hkeys : KeepsRequests old new) (added : List Reaction)
    (hinflight : ∀ key promise, new.inflight.get? key = some promise →
      requestKey new promise = some key)
    (hcache : ∀ key entry, new.cache.get? key = some entry → old.cache.get? key = some entry)
    (hreactions : new.reactions = old.reactions ++ added)
    (hadded : ∀ reaction ∈ added, reaction.query = i ∧
      requestKey new reaction.promise = some reaction.key)
    (hqueries : new.queries = old.queries.set i q') (hi : i < old.queries.length)
    (hq : QueryReady new i q') : Ready new := by
  refine ⟨hinflight, fun key entry hget => hkeys _ _ (h.cache key entry (hcache key entry hget)),
    fun reaction hmem => ?_, fun j q hget => ?_⟩
  · rw [hqueries, length_set]
    rw [hreactions] at hmem
    rcases mem_append.mp hmem with hmem | hmem
    · exact ⟨hkeys _ _ (h.reactions reaction hmem).1, (h.reactions reaction hmem).2⟩
    · obtain ⟨hquery, hkey⟩ := hadded reaction hmem
      exact ⟨hkey, hquery ▸ hi⟩
  · rw [hqueries] at hget
    by_cases hj : i = j
    · subst hj
      rw [getElem?_set_self hi] at hget
      exact Option.some.inj hget ▸ hq
    · rw [getElem?_set_ne hj] at hget
      refine (h.queries j q hget).frame hkeys fun reaction hquery => ?_
      rw [hreactions, mem_append]
      refine ⟨fun hmem => hmem.resolve_right fun hnew => ?_, .inl⟩
      exact hj ((hadded reaction hnew).1.symm.trans hquery)

/-- A step that touches no query and no handler, and only drops entries. -/
theorem Ready.mono (h : Ready old) (hkeys : KeepsRequests old new)
    (hinflight : ∀ key promise, new.inflight.get? key = some promise →
      old.inflight.get? key = some promise)
    (hcache : ∀ key entry, new.cache.get? key = some entry → old.cache.get? key = some entry)
    (hreactions : new.reactions = old.reactions) (hqueries : new.queries = old.queries) :
    Ready new := by
  refine ⟨fun key promise hget => hkeys _ _ (h.inflight _ _ (hinflight _ _ hget)),
    fun key entry hget => hkeys _ _ (h.cache _ _ (hcache _ _ hget)), fun reaction hmem => ?_,
    fun i q hget => ?_⟩
  · rw [hreactions] at hmem
    rw [hqueries]
    exact ⟨hkeys _ _ (h.reactions reaction hmem).1, (h.reactions reaction hmem).2⟩
  · rw [hqueries] at hget
    exact (h.queries i q hget).frame hkeys fun reaction _ => by rw [hreactions]

theorem keepsRequests_request (client : Client V E) (key : String) :
    KeepsRequests client (client.request key) := by
  intro promise key' hkey
  obtain ⟨request, hget, rfl⟩ := map_eq_some_iff.mp hkey
  have hlt := (List.getElem?_eq_some_iff.mp hget).1
  exact map_eq_some_iff.mpr ⟨request, (getElem?_append_left hlt).trans hget, rfl⟩

theorem requestKey_request (client : Client V E) (key : String) :
    requestKey (client.request key) client.requests.length = some key := by
  simp [requestKey, request]

end Frames

/-- A query later in a run of its effect: it still waits for the same
requests and shows the same data. -/
structure Continues (q₀ q : QueryInstance V E) : Prop where
  fetchId : q.fetchId = q₀.fetchId
  timer : ∀ timer ∈ q.debounceTimer, timer ∈ q₀.debounceTimer
  data : q.rawData = q₀.rawData

theorem Continues.refl (q : QueryInstance V E) : Continues q q := ⟨rfl, fun _ h => h, rfl⟩

section Effect

variable {old new client : Client V E} {i : ℕ} {q₀ q : QueryInstance V E} {promise : ℕ}
  {key : String}

theorem queryReady_fetch (h : QueryReady old i q₀) (hkeys : KeepsRequests old new)
    (hreactions : new.reactions = old.reactions ++ [⟨promise, i, q.fetchId, key⟩])
    (hid : q.fetchId = q₀.fetchId + 1) (hkey : key = q.resolveCurrentCacheKey)
    (htimer : ∀ timer ∈ q.debounceTimer, timer ∈ q₀.debounceTimer ∧ timer.2 = key) :
    QueryReady new i q := by
  refine ⟨fun reaction hmem hquery hcurrent => ?_, fun reaction hmem hquery => ?_,
    fun timer hmem => ?_, fun _ => ?_⟩
  · rw [hreactions] at hmem
    rcases mem_append.mp hmem with hmem | hmem
    · have hpast := h.past reaction hmem hquery
      omega
    · exact mem_singleton.mp hmem ▸ hkey
  · rw [hreactions] at hmem
    rcases mem_append.mp hmem with hmem | hmem
    · have hpast := h.past reaction hmem hquery
      omega
    · exact mem_singleton.mp hmem ▸ Nat.le_refl _
  · obtain ⟨hmem, htarget⟩ := htimer timer hmem
    exact ⟨hkeys _ _ (h.timer timer hmem).1, htarget.trans hkey⟩
  · exact .inr (.inr
      ⟨_, hreactions ▸ mem_append_right _ (mem_singleton_self _), rfl, rfl⟩)

/-- The same `fetchId`: what the query waits for has to be for the new key. -/
theorem queryReady_keep (h : QueryReady old i q₀) (hreactions : new.reactions = old.reactions)
    (hid : q.fetchId = q₀.fetchId)
    (hcurrent : ∀ reaction ∈ old.reactions, reaction.query = i → reaction.id = q₀.fetchId →
      reaction.key = q.resolveCurrentCacheKey)
    (htimer : ∀ timer ∈ q.debounceTimer, requestKey new timer.1 = some timer.2 ∧
      timer.2 = q.resolveCurrentCacheKey)
    (hdata : ShowsKey new q q.resolveCurrentCacheKey ∨ q.debounceTimer.isSome ∨
      Waiting old i q₀) : QueryReady new i q := by
  refine ⟨fun reaction hmem hquery hsame => ?_, fun reaction hmem hquery => ?_, htimer,
    fun _ => ?_⟩
  · exact hcurrent reaction (hreactions ▸ hmem) hquery (hsame.trans hid)
  · exact hid ▸ h.past reaction (hreactions ▸ hmem) hquery
  · rcases hdata with hshows | htimer | ⟨reaction, hmem, hquery, hwaits⟩
    · exact .inl hshows
    · exact .inr (.inl htimer)
    · exact .inr (.inr ⟨reaction, hreactions ▸ hmem, hquery, hwaits.trans hid.symm⟩)

@[simp] theorem startLoading_resolve (q : QueryInstance V E) :
    q.startLoading.resolveCurrentCacheKey = q.resolveCurrentCacheKey := by
  rw [QueryInstance.startLoading]
  split <;> rfl

@[simp] theorem startLoading_timer (q : QueryInstance V E) :
    q.startLoading.debounceTimer = q.debounceTimer := by
  rw [QueryInstance.startLoading]
  split <;> rfl

theorem ready_join (h : Ready client) (hget : client.queries[i]? = some q₀)
    (hcontinues : Continues q₀ q) (hrequest : requestKey client promise = some key)
    (hkey : key = q.resolveCurrentCacheKey) (htimer : ∀ timer ∈ q.debounceTimer, timer.2 = key) :
    Ready (client.join i q promise key) := by
  have hlt := (List.getElem?_eq_some_iff.mp hget).1
  refine h.update (fun _ _ h => h) [⟨promise, i, q.fetchId + 1, key⟩] h.inflight (fun _ _ h => h)
    rfl ?_ rfl hlt ?_
  · rintro reaction hmem
    obtain rfl := mem_singleton.mp hmem
    exact ⟨rfl, hrequest⟩
  · refine queryReady_fetch (h.queries i q₀ hget) (fun _ _ h => h) rfl
      (congrArg (· + 1) hcontinues.fetchId) (hkey.trans (startLoading_resolve q).symm) ?_
    intro timer hmem
    have hmem : timer ∈ q.startLoading.debounceTimer := hmem
    rw [startLoading_timer] at hmem
    exact ⟨hcontinues.timer timer hmem, htimer timer hmem⟩

theorem ready_startFetch (h : Ready client) (hget : client.queries[i]? = some q₀)
    (hcontinues : Continues q₀ q) (hrequest : requestKey client promise = some key)
    (hkey : key = q.resolveCurrentCacheKey) (htimer : ∀ timer ∈ q.debounceTimer, timer.2 = key) :
    Ready (client.startFetch i q promise key) := by
  have hlt := (List.getElem?_eq_some_iff.mp hget).1
  have hid : q.fetchId + 1 = q₀.fetchId + 1 := congrArg (· + 1) hcontinues.fetchId
  have htimer' : ∀ timer ∈ q.startLoading.debounceTimer, timer ∈ q₀.debounceTimer ∧
      timer.2 = key := by
    intro timer hmem
    rw [startLoading_timer] at hmem
    exact ⟨hcontinues.timer timer hmem, htimer timer hmem⟩
  have hkey' := hkey.trans (startLoading_resolve q).symm
  have hquery := h.queries i q₀ hget
  simp only [startFetch]
  cases hinflight : client.inflight.get? key with
  | some existing =>
    refine h.update (fun _ _ h => h) [⟨existing, i, q.fetchId + 1, key⟩] h.inflight
      (fun _ _ h => h) rfl ?_ rfl hlt ?_
    · rintro reaction hmem
      obtain rfl := mem_singleton.mp hmem
      exact ⟨rfl, h.inflight key existing hinflight⟩
    · exact queryReady_fetch hquery (fun _ _ h => h) rfl hid
        hkey' htimer'
  | none =>
    refine h.update (fun _ _ h => h) [⟨promise, i, q.fetchId + 1, key⟩] ?_ (fun _ _ h => h)
      rfl ?_ rfl hlt ?_
    · intro key' promise' hget'
      have hget' : (client.inflight.insert key promise).get? key' = some promise' := hget'
      rw [Record.get?_insert] at hget'
      split at hget'
      · next heq =>
          obtain rfl := Option.some.inj hget'
          exact heq ▸ hrequest
      · exact h.inflight key' promise' hget'
    · rintro reaction hmem
      obtain rfl := mem_singleton.mp hmem
      exact ⟨rfl, hrequest⟩
    · exact queryReady_fetch hquery (fun _ _ h => h) rfl hid
        hkey' htimer'

theorem ready_put (h : Ready client) (hget : client.queries[i]? = some q₀)
    (hq : QueryReady (client.put i q) i q) : Ready (client.put i q) :=
  h.update (fun _ _ h => h) [] h.inflight (fun _ _ h => h) (append_nil _).symm
    (fun _ hmem => absurd hmem List.not_mem_nil) rfl (List.getElem?_eq_some_iff.mp hget).1 hq

theorem ready_fetchOrServe (h : Ready client) (hget : client.queries[i]? = some q₀)
    (hcontinues : Continues q₀ q) {effectKey : Option String}
    (hrequest : requestKey client promise = some q.resolveCurrentCacheKey)
    (hcurrent : pathStarted client q effectKey ≠ .join → pathStarted client q effectKey ≠ .fetch →
      ∀ reaction ∈ client.reactions, reaction.query = i → reaction.id = q₀.fetchId →
        reaction.key = q.resolveCurrentCacheKey)
    (htimer : pathStarted client q effectKey ≠ .debounce →
      ∀ timer ∈ q₀.debounceTimer, timer.2 = q.resolveCurrentCacheKey) :
    Ready (client.fetchOrServe i q effectKey promise q.resolveCurrentCacheKey) := by
  have hquery := h.queries i q₀ hget
  simp only [fetchOrServe]
  cases hjoin : client.derivedInflight q effectKey q.resolveCurrentCacheKey with
  | some existing =>
    have hpath : pathStarted client q effectKey = .join := by simp [pathStarted, hjoin]
    have hinflight : client.inflight.get? q.resolveCurrentCacheKey = some existing := by
      rw [derivedInflight] at hjoin
      split at hjoin
      · exact hjoin
      · cases hjoin
    refine ready_join h hget hcontinues (h.inflight _ _ hinflight) rfl fun timer hmem => ?_
    exact htimer (by rw [hpath]; exact Path.noConfusion) timer (hcontinues.timer timer hmem)
  | none =>
    cases hserve : client.cacheHit q effectKey q.resolveCurrentCacheKey with
    | some entry =>
      have hpath : pathStarted client q effectKey = .serve := by
        simp [pathStarted, hjoin, hserve]
      rw [hpath] at hcurrent htimer
      have hcache : client.cache.get? q.resolveCurrentCacheKey = some entry := by
        rw [cacheHit] at hserve
        split at hserve
        · exact hserve
        · cases hserve
      refine ready_put h hget (queryReady_keep hquery rfl hcontinues.fetchId
        (hcurrent Path.noConfusion Path.noConfusion) (fun timer hmem => ?_) (.inl ?_))
      · have hmem := hcontinues.timer timer hmem
        exact ⟨(hquery.timer timer hmem).1, htimer Path.noConfusion timer hmem⟩
      · intro response hresponse
        obtain rfl := Option.some.inj hresponse
        exact h.cache _ _ hcache
    | none =>
      by_cases hdebounce : q.debounce
      · have hpath : pathStarted client q effectKey = .debounce := by
          simp [pathStarted, hjoin, hserve, hdebounce]
        rw [hpath] at hcurrent
        simp only [hdebounce, if_true]
        refine ready_put h hget (queryReady_keep hquery rfl hcontinues.fetchId
          (hcurrent Path.noConfusion Path.noConfusion) (fun timer hmem => ?_)
          (.inr (.inl rfl)))
        obtain rfl := Option.some.inj hmem
        exact ⟨hrequest, rfl⟩
      · have hpath : pathStarted client q effectKey = .fetch := by
          simp [pathStarted, hjoin, hserve, hdebounce]
        rw [hpath] at htimer
        simp only [hdebounce]
        refine ready_startFetch h hget ⟨hcontinues.fetchId, hcontinues.timer, hcontinues.data⟩
          hrequest rfl fun timer hmem => ?_
        exact htimer Path.noConfusion timer (hcontinues.timer timer hmem)

theorem pathStarted_ne_null (client : Client V E) (q : QueryInstance V E)
    (effectKey : Option String) : pathStarted client q effectKey ≠ .null := by
  simp only [pathStarted]
  split
  · exact Path.noConfusion
  · split
    · exact Path.noConfusion
    · split <;> exact Path.noConfusion

theorem ready_started (h : Ready client) (hget : client.queries[i]? = some q₀)
    (hcontinues : Continues q₀ q) {effectKey : Option String} {path : Path}
    (hpath : path = pathStarted client (q.prepare effectKey) effectKey)
    (hcurrent : path ≠ .join → path ≠ .fetch → ∀ reaction ∈ client.reactions,
      reaction.query = i → reaction.id = q₀.fetchId →
        reaction.key = (q.prepare effectKey).resolveCurrentCacheKey)
    (htimer : path ≠ .null → path ≠ .debounce →
      ∀ timer ∈ q₀.debounceTimer, timer.2 = (q.prepare effectKey).resolveCurrentCacheKey) :
    Ready (client.started i q effectKey) := by
  subst hpath
  have hrequested : Ready (client.request (q.prepare effectKey).resolveCurrentCacheKey) :=
    h.mono (keepsRequests_request client _) (fun _ _ h => h) (fun _ _ h => h) rfl rfl
  exact ready_fetchOrServe hrequested hget
    (⟨hcontinues.fetchId, hcontinues.timer, hcontinues.data⟩ : Continues q₀ (q.prepare effectKey))
    (requestKey_request client _) hcurrent (htimer (pathStarted_ne_null _ _ _))

theorem adoptEntity_frame (h : Ready client) (i : ℕ) (q : QueryInstance V E)
    (depHash key : String) (entity : Option String) :
    let result := client.adoptEntity i { q with depHash := depHash } entity
    Ready result.1 ∧ result.1.queries = client.queries ∧ result.1.reactions = client.reactions ∧
      result.2.prepare (some key) = called q (.descriptor depHash key entity) ∧
      (∀ q' effectKey, pathStarted result.1 q' effectKey = pathStarted client q' effectKey) ∧
      Continues q result.2 := by
  simp only [adoptEntity, called]
  cases hmeta : q.entityMeta with
  | some own => exact ⟨h, rfl, rfl, by simp, fun _ _ => rfl, ⟨rfl, fun _ h => h, rfl⟩⟩
  | none =>
    cases entity with
    | none => exact ⟨h, rfl, rfl, by simp, fun _ _ => rfl, ⟨rfl, fun _ h => h, rfl⟩⟩
    | some entityType =>
      exact ⟨h.mono (fun _ _ h => h) (fun _ _ h => h) (fun _ _ h => h) rfl rfl, rfl, rfl, rfl,
        fun _ _ => rfl, ⟨rfl, fun _ h => h, rfl⟩⟩

theorem ready_effect {thunk : Thunk} (h : Ready client) (hget : client.queries[i]? = some q)
    (hcareful : CarefulRun client i q thunk) : Ready (client.effect i q thunk) := by
  have hquery := h.queries i q hget
  rw [CarefulRun] at hcareful
  cases hcustom : client.customInflight q with
  | some existing =>
    obtain ⟨existing, key⟩ := existing
    rw [hcustom] at hcareful
    have hinflight : client.inflight.get? key = some existing := by
      rw [customInflight] at hcustom
      split at hcustom
      · obtain ⟨_, hsome, heq⟩ := map_eq_some_iff.mp hcustom
        obtain ⟨rfl, rfl⟩ := Prod.mk.inj heq
        exact hsome
      · cases hcustom
    simp only [effect, hcustom]
    refine ready_join h hget (.refl q) (h.inflight _ _ hinflight) hcareful fun timer hmem => ?_
    exact (hquery.timer timer hmem).2.trans hcareful.symm
  | none =>
    rw [hcustom] at hcareful
    obtain ⟨hcurrent, htimer, hdata⟩ := hcareful
    simp only [effect, hcustom]
    cases thunk with
    | null depHash =>
      refine ready_put h hget (queryReady_keep hquery rfl rfl
        (hcurrent Path.noConfusion Path.noConfusion) (fun _ hmem => by cases hmem) ?_)
      rcases hdata rfl with hshows | hwaits
      · exact .inl hshows
      · exact .inr (.inr hwaits)
    | promise depHash =>
      exact ready_started (q := { q with depHash := depHash }) h hget ⟨rfl, fun _ h => h, rfl⟩
        rfl hcurrent htimer
    | descriptor depHash key entity =>
      obtain ⟨hready, hqueries, hreactions, hcalled, hpath, hcontinues⟩ :=
        adoptEntity_frame h i q depHash key entity
      rw [← hcalled] at hcurrent htimer
      rw [← hreactions] at hcurrent
      rw [← hqueries] at hget
      exact ready_started hready hget hcontinues (by rw [path, ← hcalled, hpath]) hcurrent htimer

end Effect

section Steps

variable {client : Client V E} {i : ℕ}

theorem ready_rerun {thunk : Thunk} (h : Ready client) (hcareful : CarefulRerun client i thunk) :
    Ready (client.rerun i thunk) := by
  rw [rerun]
  split
  · next q hget =>
      by_cases hdisposed : q.disposed
      · rw [if_pos hdisposed]
        exact h
      · rw [if_neg hdisposed]
        exact ready_effect h hget (hcareful q hget (by simpa using hdisposed))
  · exact h

theorem ready_clearKey (h : Ready client) (key : String) : Ready (client.clearKey key) := by
  refine h.mono (fun _ _ h => h) (fun key' promise hget => ?_) (fun key' entry hget => ?_) rfl rfl
  · rw [clearKey, Record.get?_erase] at hget
    split at hget
    · cases hget
    · exact hget
  · rw [clearKey, Record.get?_erase] at hget
    split at hget
    · cases hget
    · exact hget

theorem ready_refetch {thunk : Thunk} (h : Ready client)
    (hcareful : CarefulRefetch client i thunk) : Ready (client.refetch i thunk) := by
  rw [refetch]
  split
  · next q hget => exact ready_rerun (ready_clearKey h _) (hcareful q hget)
  · exact h

theorem ready_emit (h : Ready client) (entityType : String) (thunks : ℕ → Thunk)
    (hcareful : CarefulClientStep client (.emit entityType thunks)) :
    Ready (client.emit entityType thunks) := by
  have hbumped : Ready { client with bus := client.bus.bump entityType } :=
    h.mono (fun _ _ h => h) (fun _ _ h => h) (fun _ _ h => h) rfl rfl
  exact Along.invariant (fun _ _ hready hcareful => ready_refetch hready hcareful) hbumped hcareful

theorem ready_query (h : Ready client) (options : QueryOptions) (thunk : Thunk) :
    Ready (client.query options thunk) := by
  let q : QueryInstance V E := options.instance
  let added : Client V E := { client with queries := client.queries ++ [q] }
  have hnone : ∀ reaction ∈ client.reactions, reaction.query ≠ client.queries.length :=
    fun reaction hmem => Nat.ne_of_lt (h.reactions reaction hmem).2
  have hadded : Ready added := by
    refine ⟨h.inflight, h.cache, fun reaction hmem => ?_, fun j q' hget => ?_⟩
    · refine ⟨(h.reactions reaction hmem).1, ?_⟩
      exact Nat.lt_of_lt_of_le (h.reactions reaction hmem).2 (by simp [added])
    · by_cases hj : j < client.queries.length
      · have hget : (client.queries ++ [q])[j]? = some q' := hget
        rw [getElem?_append_left hj] at hget
        exact (h.queries j q' hget).frame (fun _ _ h => h) fun _ _ => Iff.rfl
      · have hget : (client.queries ++ [q])[j]? = some q' := hget
        rw [getElem?_append_right (Nat.not_lt.mp hj)] at hget
        obtain ⟨hlt, rfl⟩ := List.getElem?_eq_some_iff.mp hget
        have hj : j = client.queries.length := by
          rw [length_singleton] at hlt
          omega
        subst hj
        simp only [Nat.sub_self, getElem_cons_zero]
        refine ⟨fun reaction hmem hquery => absurd hquery (hnone reaction hmem),
          fun reaction hmem hquery => absurd hquery (hnone reaction hmem),
          fun timer htimer => ?_, fun _ => .inl fun response hresponse => ?_⟩
        · cases htimer
        · cases hresponse
  have hget : added.queries[client.queries.length]? = some q := by simp [added]
  have hcareful : CarefulRun added client.queries.length q thunk := by
    rw [CarefulRun]
    cases hcustom : added.customInflight q with
    | some existing =>
      rw [customInflight] at hcustom
      split at hcustom
      · next htruthy =>
          obtain ⟨_, -, rfl⟩ := map_eq_some_iff.mp hcustom
          obtain ⟨key, hkey⟩ : ∃ key, options.key = some key := by
            cases hkey : options.key with
            | some key => exact ⟨key, rfl⟩
            | none => simp [q, QueryOptions.instance, hkey, truthy] at htruthy
          simp [q, QueryOptions.instance, QueryInstance.resolveCurrentCacheKey, truthy,
            QueryInstance.getCacheKey, hkey]
      · cases hcustom
    | none =>
      refine ⟨fun _ _ reaction hmem hquery => absurd hquery (hnone reaction hmem),
        fun _ _ timer htimer => ?_, fun _ => .inl fun response hresponse => ?_⟩
      · cases htimer
      · cases hresponse
  have heffect := ready_effect hadded hget hcareful
  rw [query]
  split
  · exact heffect.mono (fun _ _ h => h) (fun _ _ h => h) (fun _ _ h => h) rfl rfl
  · exact heffect

theorem ready_debounced (h : Ready client) : Ready (client.debounced i) := by
  rw [debounced]
  split
  · next q hget =>
      split
      · next promise key htimer =>
          obtain ⟨hrequest, hkey⟩ := (h.queries i q hget).timer (promise, key) htimer
          refine ready_startFetch (q := { q with debounceTimer := none }) h hget
            ⟨rfl, fun _ hmem => ?_, rfl⟩ hrequest hkey fun _ hmem => ?_
          · cases hmem
          · cases hmem
      · exact h
  · exact h

theorem ready_settle (h : Ready client) (promise : ℕ) (outcome : Except E V) :
    Ready (client.settle promise outcome) := by
  refine h.mono (fun p key hkey => ?_) (fun _ _ h => h) (fun _ _ h => h) rfl rfl
  obtain ⟨request, hget, rfl⟩ := map_eq_some_iff.mp hkey
  rw [requestKey, settle, getElem?_modify, hget]
  simp only [Option.map_eq_map, Option.map_some]
  split <;> rfl

theorem ready_evict (h : Ready client) (key : String) : Ready (client.evict key) := by
  refine h.mono (fun _ _ h => h) (fun _ _ h => h) (fun key' entry hget => ?_) rfl rfl
  rw [evict, Record.get?_erase] at hget
  split at hget
  · cases hget
  · exact hget

theorem ready_dispose (h : Ready client) : Ready (client.dispose i) := by
  rw [dispose]
  split
  · next q hget =>
      have hquery := h.queries i q hget
      have hkept : ∀ key promise,
          (q.inflightKeys.foldl Record.erase client.inflight).get? key = some promise →
            client.inflight.get? key = some promise := by
        intro key promise hin
        rw [Record.get?_foldl_erase] at hin
        split at hin
        · cases hin
        · exact hin
      refine h.update (fun _ _ h => h) []
        (fun key promise hin => h.inflight key promise (hkept key promise hin))
        (fun _ _ h => h) (append_nil _).symm (fun _ hmem => absurd hmem not_mem_nil) rfl
        (List.getElem?_eq_some_iff.mp hget).1 ?_
      refine ⟨fun reaction hmem hi hid => ?_, fun reaction hmem hi => ?_,
        fun _ hmem => (by cases hmem), fun hlive => (by cases hlive)⟩
      · have hpast := hquery.past reaction hmem hi
        have hid : reaction.id = q.fetchId + 1 := hid
        omega
      · exact Nat.le_succ_of_le (hquery.past reaction hmem hi)
  · exact h

theorem mem_eraseIdx_of_ne {α : Type} {xs : List α} {x y : α} {position : ℕ}
    (hy : xs[position]? = some y) (hx : x ∈ xs) (hne : x ≠ y) : x ∈ xs.eraseIdx position := by
  rw [mem_eraseIdx_iff_getElem?]
  obtain ⟨j, hj⟩ := mem_iff_getElem?.mp hx
  refine ⟨j, fun heq => hne ?_, hj⟩
  exact Option.some.inj (hj.symm.trans (heq ▸ hy))

/-- The handlers of a query run: the other queries stay as they are. -/
theorem Ready.handled {old new : Client V E} (h : Ready old) {position : ℕ}
    {reaction : Reaction} {q q' : QueryInstance V E}
    (hreaction : old.reactions[position]? = some reaction)
    (hget : old.queries[reaction.query]? = some q) (hkeys : new.requests = old.requests)
    (hreactions : new.reactions = old.reactions.eraseIdx position)
    (hinflight : new.inflight = old.inflight.erase reaction.key)
    (hcache : ∀ key entry, new.cache.get? key = some entry →
      requestKey old entry.response.promise = some key)
    (hqueries : new.queries = old.queries.set reaction.query q')
    (hq : QueryReady new reaction.query q') : Ready new := by
  have hkept : KeepsRequests old new := fun promise key hkey => by
    rw [requestKey, hkeys]
    exact hkey
  refine ⟨fun key promise hin => ?_, fun key entry hin => hkept _ _ (hcache key entry hin),
    fun reaction' hmem => ?_, fun j q₁ hj => ?_⟩
  · rw [hinflight, Record.get?_erase] at hin
    split at hin
    · cases hin
    · exact hkept _ _ (h.inflight key promise hin)
  · rw [hreactions] at hmem
    have hold := h.reactions reaction' (mem_of_mem_eraseIdx hmem)
    rw [hqueries, length_set]
    exact ⟨hkept _ _ hold.1, hold.2⟩
  · rw [hqueries] at hj
    by_cases heq : reaction.query = j
    · subst heq
      rw [List.getElem?_set_self (List.getElem?_eq_some_iff.mp hget).1] at hj
      exact Option.some.inj hj ▸ hq
    · rw [getElem?_set_ne heq] at hj
      refine (h.queries j q₁ hj).frame hkept fun reaction' hquery => ?_
      rw [hreactions]
      refine ⟨mem_of_mem_eraseIdx, fun hmem => ?_⟩
      exact mem_eraseIdx_of_ne hreaction hmem fun hsame => heq (hsame ▸ hquery)

theorem ready_react {position : ℕ} (h : Ready client)
    (hcareful : CarefulClientStep client (.react position)) : Ready (client.react position) := by
  rw [react]
  split
  · exact h
  · next reaction hreaction =>
      split
      · exact h
      · next outcome houtcome =>
          obtain ⟨request, hrequest, houtcome⟩ := bind_eq_some_iff.mp houtcome
          obtain ⟨hkey, hlt⟩ := h.reactions reaction (mem_of_getElem? hreaction)
          have hget : client.queries[reaction.query]? = some client.queries[reaction.query] :=
            getElem?_eq_getElem hlt
          generalize client.queries[reaction.query] = q at hget
          have hquery := h.queries _ q hget
          have hsub : ∀ reaction' ∈ client.reactions.eraseIdx position,
              reaction' ∈ client.reactions := fun _ hmem => mem_of_mem_eraseIdx hmem
          simp only [handle, hget]
          by_cases hid : reaction.id = q.fetchId
          · have htarget := hquery.current reaction (mem_of_getElem? hreaction) rfl hid
            simp only [hid, ne_eq, not_true_eq_false, if_false]
            cases outcome with
            | ok value =>
              refine h.handled hreaction hget rfl rfl rfl (fun key entry hin => ?_) rfl ?_
              · have hin : (client.cache.insert reaction.key _).get? key = some entry := hin
                rw [Record.get?_insert] at hin
                split at hin
                · next heq =>
                    obtain rfl := Option.some.inj hin
                    exact heq ▸ hkey
                · exact h.cache key entry hin
              · refine ⟨fun reaction' hmem => hquery.current reaction' (hsub _ hmem),
                  fun reaction' hmem => hquery.past reaction' (hsub _ hmem), hquery.timer,
                  fun _ => .inl fun response hresponse => ?_⟩
                obtain rfl := Option.some.inj hresponse
                exact hkey.trans (congrArg some htarget)
            | error e =>
              refine h.handled hreaction hget rfl rfl rfl h.cache rfl ?_
              refine ⟨fun reaction' hmem => hquery.current reaction' (hsub _ hmem),
                fun reaction' hmem => hquery.past reaction' (hsub _ hmem), hquery.timer,
                fun _ => ?_⟩
              rcases hcareful reaction request q e hreaction hrequest houtcome hget hid with
                hshows | htimer
              · exact .inl (htarget ▸ hshows)
              · exact .inr (.inl htimer)
          · simp only [hid, ne_eq, not_false_eq_true, if_true]
            refine h.handled hreaction hget rfl rfl rfl h.cache rfl ?_
            refine ⟨fun reaction' hmem => hquery.current reaction' (hsub _ hmem),
              fun reaction' hmem => hquery.past reaction' (hsub _ hmem), hquery.timer,
              fun hlive => ?_⟩
            rcases hquery.data hlive with hshows | htimer | ⟨reaction', hmem, hi, hwaits⟩
            · exact .inl hshows
            · exact .inr (.inl htimer)
            · have hne : reaction' ≠ reaction := fun heq => hid (heq ▸ hwaits)
              exact .inr (.inr ⟨reaction', mem_eraseIdx_of_ne hreaction hmem hne, hi, hwaits⟩)

theorem ready_step (h : Ready client) (step : ClientStep V E)
    (hcareful : CarefulClientStep client step) : Ready (clientStep client step) := by
  cases step with
  | query options thunk => exact ready_query h options thunk
  | dependency i thunk => exact ready_rerun h hcareful
  | refetch i thunk => exact ready_refetch h hcareful
  | debounced i => exact ready_debounced h
  | settle promise outcome => exact ready_settle h promise outcome
  | react position => exact ready_react h hcareful
  | emit entityType thunks => exact ready_emit h entityType thunks hcareful
  | dispose i => exact ready_dispose h
  | evict key => exact ready_evict h key

/-- A response for another key is not the one that is waited for. -/
theorem Ready.ignoresOther (h : Ready client) (step : ClientStep V E) :
    IgnoresOther client step := by
  cases step with
  | react position =>
    intro reaction q q' hreaction hget hother hget'
    have hmem := mem_of_getElem? hreaction
    have hid : reaction.id ≠ q.fetchId := fun hid => by
      rw [(h.reactions reaction hmem).1,
        (h.queries _ q hget).current reaction hmem rfl hid] at hother
      exact hother rfl
    simp only [react, hreaction] at hget'
    cases houtcome : (client.requests[reaction.promise]?).bind Request.outcome with
    | none =>
      simp only [houtcome, hget] at hget'
      obtain rfl := Option.some.inj hget'
      exact ⟨rfl, rfl, rfl⟩
    | some outcome =>
      have hlt := (List.getElem?_eq_some_iff.mp hget).1
      simp only [houtcome, handle, hget, hid, ne_eq, not_false_eq_true, if_true,
        put, getElem?_set_self hlt] at hget'
      obtain rfl := Option.some.inj hget'
      exact ⟨rfl, rfl, rfl⟩
  | _ => trivial

end Steps

theorem careful_react_ok {client : Client V E} {position : ℕ} (value : V)
    (h : ((client.reactions[position]?).bind fun reaction =>
      (client.requests[reaction.promise]?).bind Request.outcome) = some (.ok value)) :
    CarefulClientStep client (.react position) := by
  intro reaction request q error hreaction hrequest houtcome
  rw [hreaction, bind_some, hrequest, bind_some, houtcome] at h
  cases h

/-- In a careful run a query shows no response but that of its current
key. -/
theorem careful_run_ordered (steps : List (ClientStep V E))
    (hcareful : Along clientStep CarefulClientStep {} steps) :
    Along clientStep Ordered {} steps := by
  have hready : Ready ({} : Client V E) :=
    ⟨fun _ _ hget => (by cases hget), fun _ _ hget => (by cases hget),
      fun _ hmem => (by cases hmem), fun _ _ hget => (by cases hget)⟩
  exact Along.imp (I := Ready) (P := CarefulClientStep)
    (fun client step h hstep => ready_step h step hstep)
    (fun client step h hstep => ⟨h.ignoresOther step, (ready_step h step hstep).showsCurrent⟩)
    hready hcareful

/-- Two keys whose requests settle in the other order. -/
theorem late_response_ignored : Along clientStep Ordered ({} : Client ℕ String)
    [.query { baseKey := "tasks" } (.promise "a"), .dependency 0 (.promise "b"),
      .settle 1 (.ok 2), .react 1, .settle 0 (.ok 1), .react 0] := by
  refine careful_run_ordered _ ⟨trivial, ?_, trivial, ?_, trivial, ?_, trivial⟩
  · rintro q hq -
    obtain rfl := Option.some.inj hq
    exact ⟨fun _ hfetch => absurd rfl hfetch, fun _ _ _ htimer => (by cases htimer),
      fun hnull => (by cases hnull)⟩
  · exact careful_react_ok 2 rfl
  · exact careful_react_ok 1 rfl

/-- A dependency changes to a key that is in the cache while the request
for the first key is in flight: the cached data is shown, and then the late
response of the first key. -/
theorem cached_key_overwritten :
    ¬ ∀ steps : List (ClientStep ℕ String), Along clientStep Ordered {} steps := by
  intro h
  have hrun := h
    [.query { baseKey := "tasks" } (.promise "b"), .settle 0 (.ok 2), .react 0,
      .dependency 0 (.promise "a"), .dependency 0 (.promise "b"), .settle 1 (.ok 1),
      .settle 2 (.ok 2), .react 0]
  have hshows := hrun.2.2.2.2.2.2.2.1.2 0 _ rfl rfl ⟨rfl, by decide⟩ ⟨1, 1⟩ rfl
  revert hshows
  decide

end Vertz.Spec
