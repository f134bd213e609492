import Vertz.Spec.QueryRuns

/-!
# `Vertz.Proofs.FreshEntries`: what the version of a cache entry says

Only a reaction stores an entry, and it stamps it with the version of the
bus at that moment. `DropsOnly` says that everything else
only drops entries, and `Stamped` that each entry carries the version its request started
with: prompt steps keep it, and under it the entries are fresh.

`prompt_run_fresh` is the result for whole runs. In
`overtaken_response_fresh` an event falls between a request and the
debounced fetch that waits for it.
-/

namespace Vertz.Spec

open Vertz.Ui.Query.Client
open Vertz.Lib Vertz.Ui.Query

variable {V E : Type}

/-- A step that stores nothing. -/
structure DropsOnly (old new : Client V E) : Prop where
  versions : new.bus.getVersion = old.bus.getVersion
  cache : ∀ key entry, new.cache.get? key = some entry → old.cache.get? key = some entry
  requests : ∀ (p : ℕ) (request : Request V E), old.requests[p]? = some request →
    ∃ request' : Request V E, new.requests[p]? = some request' ∧
      request'.started = request.started ∧
      ∀ outcome, request.outcome = some outcome → request'.outcome = some outcome

namespace DropsOnly

variable {a b c : Client V E}

theorem refl (a : Client V E) : DropsOnly a a :=
  ⟨rfl, fun _ _ h => h, fun _ request h => ⟨request, h, rfl, fun _ h => h⟩⟩

theorem trans (hab : DropsOnly a b) (hbc : DropsOnly b c) : DropsOnly a c := by
  refine ⟨hbc.versions.trans hab.versions, fun key entry h => hab.cache _ _ (hbc.cache _ _ h), ?_⟩
  intro p request h
  obtain ⟨request', h', hstarted, houtcome⟩ := hab.requests p request h
  obtain ⟨request'', h'', hstarted', houtcome'⟩ := hbc.requests p request' h'
  exact ⟨request'', h'', hstarted'.trans hstarted,
    fun outcome h => houtcome' outcome (houtcome outcome h)⟩

/-- A step that changes neither the bus, nor the cache, nor the requests. -/
theorem of_eq (hbus : b.bus.getVersion = a.bus.getVersion) (hcache : b.cache = a.cache)
    (hrequests : b.requests = a.requests) : DropsOnly a b :=
  ⟨hbus, fun _ _ h => hcache ▸ h, fun _ request h => ⟨request, hrequests ▸ h, rfl, fun _ h => h⟩⟩

end DropsOnly

section Operations

variable (client : Client V E) (i : ℕ) (q : QueryInstance V E)

theorem dropsOnly_startFetch (promise : ℕ) (key : String) :
    DropsOnly client (client.startFetch i q promise key) := by
  simp only [startFetch]
  split
  · exact .of_eq rfl rfl rfl
  · exact .of_eq rfl rfl rfl

theorem dropsOnly_request (key : String) : DropsOnly client (client.request key) := by
  refine ⟨rfl, fun _ _ h => h, fun p request h => ⟨request, ?_, rfl, fun _ h => h⟩⟩
  exact (List.getElem?_append_left (List.getElem?_eq_some_iff.mp h).1).trans h

theorem dropsOnly_fetchOrServe (effectKey : Option String) (promise : ℕ) (key : String) :
    DropsOnly client (client.fetchOrServe i q effectKey promise key) := by
  simp only [fetchOrServe]
  split
  · exact .of_eq rfl rfl rfl
  · split
    · exact .of_eq rfl rfl rfl
    · split
      · exact .of_eq rfl rfl rfl
      · exact dropsOnly_startFetch _ _ _ _ _

theorem dropsOnly_started (effectKey : Option String) :
    DropsOnly client (client.started i q effectKey) :=
  (dropsOnly_request client _).trans (dropsOnly_fetchOrServe _ _ _ _ _ _)

theorem dropsOnly_effect (thunk : Thunk) : DropsOnly client (client.effect i q thunk) := by
  simp only [effect]
  split
  · exact .of_eq rfl rfl rfl
  · split
    · exact .of_eq rfl rfl rfl
    · exact dropsOnly_started _ _ _ _
    · next depHash key entity =>
        have hadopt : DropsOnly client (client.adoptEntity i { q with depHash := depHash } entity).1 := by
          simp only [adoptEntity]
          split
          · exact .of_eq rfl rfl rfl
          · exact .refl _
        exact hadopt.trans (dropsOnly_started _ _ _ _)

theorem dropsOnly_rerun (thunk : Thunk) : DropsOnly client (client.rerun i thunk) := by
  simp only [rerun]
  split
  · split
    · exact .refl _
    · exact dropsOnly_effect _ _ _ _
  · exact .refl _

theorem dropsOnly_clearKey (key : String) : DropsOnly client (client.clearKey key) := by
  refine ⟨rfl, fun key' entry h => ?_, fun _ request h => ⟨request, h, rfl, fun _ h => h⟩⟩
  rw [clearKey, Record.get?_erase] at h
  split at h
  · cases h
  · exact h

theorem dropsOnly_evict (key : String) : DropsOnly client (client.evict key) := by
  obtain ⟨hversions, hcache, hrequests⟩ := dropsOnly_clearKey client key
  exact ⟨hversions, hcache, hrequests⟩

theorem dropsOnly_refetch (thunk : Thunk) : DropsOnly client (client.refetch i thunk) := by
  simp only [refetch]
  split
  · exact (dropsOnly_clearKey client _).trans (dropsOnly_rerun _ _ _)
  · exact .refl _

theorem dropsOnly_refetches (callbacks : List ℕ) (thunks : ℕ → Thunk) :
    DropsOnly client (callbacks.foldl (fun client i => client.refetch i (thunks i)) client) := by
  induction callbacks generalizing client with
  | nil => exact .refl _
  | cons i callbacks ih => exact (dropsOnly_refetch client i (thunks i)).trans (ih _)

theorem dropsOnly_query (options : QueryOptions) (thunk : Thunk) :
    DropsOnly client (client.query options thunk) := by
  simp only [query]
  have hcreated : DropsOnly client
      { client with queries := client.queries ++ [options.instance] } := .of_eq rfl rfl rfl
  split
  · exact (hcreated.trans (dropsOnly_effect _ _ _ _)).trans (.of_eq rfl rfl rfl)
  · exact hcreated.trans (dropsOnly_effect _ _ _ _)

theorem dropsOnly_debounced : DropsOnly client (client.debounced i) := by
  simp only [debounced]
  split
  · split
    · exact dropsOnly_startFetch _ _ _ _ _
    · exact .refl _
  · exact .refl _

theorem dropsOnly_settle (promise : ℕ) (outcome : Except E V) :
    DropsOnly client (client.settle promise outcome) := by
  refine ⟨rfl, fun _ _ h => h, fun p request h => ?_⟩
  refine ⟨if promise = p then { request with outcome := request.outcome.or (some outcome) }
    else request, ?_, by split <;> rfl, fun first hfirst => ?_⟩
  · rw [settle, List.getElem?_modify, h]
    rfl
  · split
    · show request.outcome.or (some outcome) = some first
      rw [hfirst, Option.some_or]
    · exact hfirst

theorem dropsOnly_dispose : DropsOnly client (client.dispose i) := by
  simp only [dispose]
  split
  · exact .of_eq rfl rfl rfl
  · exact .refl _

end Operations

/-- A reaction drops its entry of the requests in flight, and stores its
response if it is the query's current one and has a value. -/
theorem handle_cases (client : Client V E) (reaction : Reaction) (outcome : Except E V) :
    (DropsOnly client (client.handle reaction outcome) ∧
      ∀ q value, client.queries[reaction.query]? = some q → reaction.id = q.fetchId →
        outcome ≠ .ok value) ∨
    ∃ q value, client.queries[reaction.query]? = some q ∧ reaction.id = q.fetchId ∧
      outcome = .ok value ∧
      (client.handle reaction outcome).bus = client.bus ∧
      (client.handle reaction outcome).requests = client.requests ∧
      (client.handle reaction outcome).cache = client.cache.insert reaction.key
        ⟨⟨reaction.promise, value⟩, client.currentEntityVersion q, q.entityMeta⟩ := by
  cases hq : client.queries[reaction.query]? with
  | none =>
    refine .inl ⟨?_, fun _ _ hsome => by cases hsome⟩
    simp only [handle, hq]
    exact .refl _
  | some q =>
    by_cases hid : reaction.id = q.fetchId
    · cases outcome with
      | ok value =>
        refine .inr ⟨q, value, rfl, hid, rfl, ?_⟩
        simp only [handle, hq, hid, ne_eq, not_true_eq_false, if_false]
        exact ⟨rfl, rfl, rfl⟩
      | error e =>
        refine .inl ⟨?_, fun _ _ _ _ heq => by cases heq⟩
        simp only [handle, hq, hid, ne_eq, not_true_eq_false, if_false]
        exact .of_eq rfl rfl rfl
    · refine .inl ⟨?_, fun q' _ hsome hid' => absurd (Option.some.inj hsome ▸ hid') hid⟩
      simp only [handle, hq, hid, ne_eq, not_false_eq_true, if_true]
      exact .of_eq rfl rfl rfl

/-- Each entry carries the version with which its request started. -/
def Stamped (client : Client V E) : Prop :=
  ∀ key entry entityType, client.cache.get? key = some entry → entry.entity = some entityType →
    ∃ request, client.requests[entry.response.promise]? = some request ∧
      entry.version = request.started entityType ∧
      request.started entityType ≤ client.bus.getVersion entityType

variable {client : Client V E}

theorem Stamped.fresh (h : Stamped client) : FreshEntries client := by
  intro key entry entityType hget hentity hfresh
  obtain ⟨request, hrequest, hversion, hle⟩ := h key entry entityType hget hentity
  refine ⟨request, hrequest, ?_⟩
  have hnot : ¬ entry.version < client.bus.getVersion entityType := by
    simpa [isCachedEntryStale, hget] using hfresh
  omega

theorem DropsOnly.stamped {old new : Client V E} (h : DropsOnly old new) (hold : Stamped old) :
    Stamped new := by
  intro key entry entityType hget hentity
  obtain ⟨request, hrequest, hversion, hle⟩ :=
    hold key entry entityType (h.cache key entry hget) hentity
  obtain ⟨request', hrequest', hstarted, _⟩ := h.requests _ request hrequest
  refine ⟨request', hrequest', ?_, ?_⟩
  · rw [hstarted]
    exact hversion
  · rw [hstarted, h.versions]
    exact hle

/-- An event makes entries stale but does not change what they carry. -/
theorem Stamped.bump (h : Stamped client) (entityType : String) :
    Stamped { client with bus := client.bus.bump entityType } := by
  intro key entry entityType' hget hentity
  obtain ⟨request, hrequest, hversion, hle⟩ := h key entry entityType' hget hentity
  refine ⟨request, hrequest, hversion, Nat.le_trans hle ?_⟩
  rw [Ui.Store.MutationEventBus.getVersion_bump]
  split
  · next heq => exact heq ▸ Nat.le_succ _
  · exact Nat.le_refl _

/-- A reaction keeps the entries fresh exactly if it is prompt, and then
keeps them stamped. -/
theorem react_stamped (h : Stamped client) (position : ℕ) :
    (FreshEntries (client.react position) ↔ Prompt client (.react position)) ∧
      (Prompt client (.react position) → Stamped (client.react position)) := by
  -- a reaction that stores nothing is prompt and keeps every entry
  have hidle : DropsOnly client (client.react position) → Prompt client (.react position) →
      (FreshEntries (client.react position) ↔ Prompt client (.react position)) ∧
        (Prompt client (.react position) → Stamped (client.react position)) := by
    intro hdrops hprompt
    have hstamped := hdrops.stamped h
    exact ⟨iff_of_true hstamped.fresh hprompt, fun _ => hstamped⟩
  cases hreaction : client.reactions[position]? with
  | none =>
    refine hidle ?_ fun reaction _ _ _ _ hsome => ?_
    · simp only [react, hreaction]
      exact .refl _
    · rw [hreaction] at hsome
      cases hsome
  | some reaction =>
    cases houtcome : (client.requests[reaction.promise]?).bind Request.outcome with
    | none =>
      refine hidle ?_ fun reaction' request value _ _ hsome hrequest hvalue => ?_
      · simp only [react, hreaction, houtcome]
        exact .refl _
      · obtain rfl := Option.some.inj (hreaction.symm.trans hsome)
        rw [hrequest, Option.bind_some, hvalue] at houtcome
        cases houtcome
    | some outcome =>
      obtain ⟨request, hrequest, houtcome⟩ := Option.bind_eq_some_iff.mp houtcome
      let taken := { client with reactions := client.reactions.eraseIdx position }
      have htaken : DropsOnly client taken := .of_eq rfl rfl rfl
      have hreact : client.react position = taken.handle reaction outcome := by
        simp only [react, hreaction, hrequest, Option.bind_some, houtcome]
        rfl
      rw [hreact] at hidle ⊢
      rcases handle_cases taken reaction outcome with
        ⟨hdrops, hnone⟩ | ⟨q, value, hq, hid, rfl, hbus, hrequests, hcache⟩
      · refine hidle (htaken.trans hdrops) ?_
        intro reaction' request' value q entityType hsome hrequest' hvalue hq hid
        obtain rfl := Option.some.inj (hreaction.symm.trans hsome)
        obtain rfl := Option.some.inj (hrequest.symm.trans hrequest')
        exact absurd (Option.some.inj (houtcome.symm.trans hvalue)) (hnone q value hq hid)
      · have hprompt : Prompt client (.react position) ↔ ∀ entityType,
            q.entityMeta = some entityType →
              request.started entityType = client.bus.getVersion entityType := by
          refine ⟨fun h entityType hmeta => ?_, fun h reaction' request' value' q' entityType
            hsome hrequest' _ hq' _ hmeta => ?_⟩
          · exact h reaction request value q entityType hreaction hrequest houtcome hq hid hmeta
          · obtain rfl := Option.some.inj (hreaction.symm.trans hsome)
            obtain rfl := Option.some.inj (hrequest.symm.trans hrequest')
            obtain rfl := Option.some.inj (hq.symm.trans hq')
            exact h entityType hmeta
        have hversion : ∀ entityType, q.entityMeta = some entityType →
            taken.currentEntityVersion q = client.bus.getVersion entityType := by
          intro entityType hmeta
          simp only [currentEntityVersion, hmeta]
          rfl
        have hstamped : Prompt client (.react position) →
            Stamped (taken.handle reaction (.ok value)) := by
          intro hcurrent key entry entityType hget hentity
          rw [hrequests, hbus]
          rw [hcache, Record.get?_insert] at hget
          split at hget
          · obtain rfl := Option.some.inj hget
            have hstarted := hprompt.mp hcurrent entityType hentity
            refine ⟨request, hrequest, ?_, Nat.le_of_eq hstarted⟩
            rw [hstarted]
            exact hversion entityType hentity
          · exact h key entry entityType hget hentity
        refine ⟨⟨fun hfresh => hprompt.mpr fun entityType hmeta => ?_,
          fun hcurrent => (hstamped hcurrent).fresh⟩, hstamped⟩
        have hget := Record.get?_insert_self client.cache reaction.key
          ⟨⟨reaction.promise, value⟩, taken.currentEntityVersion q, q.entityMeta⟩
        have hnotStale : (taken.handle reaction (.ok value)).isCachedEntryStale reaction.key
            (some entityType) = false := by
          have hnot : ¬ taken.currentEntityVersion q < taken.bus.getVersion entityType := by
            rw [hversion entityType hmeta]
            exact Nat.lt_irrefl _
          simpa [isCachedEntryStale, hcache, hbus] using hnot
        obtain ⟨request', hrequest', hstarted⟩ :=
          hfresh reaction.key _ entityType (by rw [hcache]; exact hget) hmeta hnotStale
        rw [hrequests] at hrequest'
        rw [hbus] at hstarted
        obtain rfl := Option.some.inj (hrequest.symm.trans hrequest')
        exact hstarted

theorem step_stamped (h : Stamped client) (step : ClientStep V E) :
    (FreshEntries (clientStep client step) ↔ Prompt client step) ∧
      (Prompt client step → Stamped (clientStep client step)) := by
  have hidle : Stamped (clientStep client step) → Prompt client step →
      (FreshEntries (clientStep client step) ↔ Prompt client step) ∧
        (Prompt client step → Stamped (clientStep client step)) := fun hstamped hprompt =>
    ⟨iff_of_true hstamped.fresh hprompt, fun _ => hstamped⟩
  cases step with
  | query options thunk => exact hidle ((dropsOnly_query client options thunk).stamped h) trivial
  | dependency i thunk => exact hidle ((dropsOnly_rerun client i thunk).stamped h) trivial
  | refetch i thunk => exact hidle ((dropsOnly_refetch client i thunk).stamped h) trivial
  | debounced i => exact hidle ((dropsOnly_debounced client i).stamped h) trivial
  | settle promise outcome =>
    exact hidle ((dropsOnly_settle client promise outcome).stamped h) trivial
  | react position => exact react_stamped h position
  | emit entityType thunks =>
    exact hidle ((dropsOnly_refetches _ _ thunks).stamped (h.bump entityType)) trivial
  | dispose i => exact hidle ((dropsOnly_dispose client i).stamped h) trivial
  | evict key => exact hidle ((dropsOnly_evict client key).stamped h) trivial

/-- The cache reports no overtaken response as fresh exactly in the runs
that store none. -/
theorem prompt_run_fresh (steps : List (ClientStep V E)) :
    Along clientStep (fun client step => FreshEntries (clientStep client step)) {} steps ↔
      Along clientStep Prompt {} steps := by
  refine along_iff (fun client step h => (step_stamped h step).1)
    (fun client step h => (step_stamped h step).2) steps (?_ : Stamped {})
  intro key entry entityType hget
  cases hget

/-- A debounced query is waiting for its response when an event comes: the
refetch only sets the timer again, so the response is still current when it
arrives, and its entry gets the version of the event. -/
theorem overtaken_response_fresh :
    ¬ ∀ steps : List (ClientStep ℕ String),
      Along clientStep (fun client step => FreshEntries (clientStep client step)) {} steps := by
  intro h
  have hrun := h
    [.query { key := some "GET:/todos", baseKey := "todos", debounce := true,
              entityMeta := some "todos" } (.promise ""),
      .debounced 0, .emit "todos" fun _ => .promise "", .settle 0 (.ok 7), .react 0]
  obtain ⟨request, hrequest, hstarted⟩ :=
    hrun.2.2.2.2.1 "GET:/todos" ⟨⟨0, 7⟩, 1, some "todos"⟩ "todos" rfl rfl rfl
  obtain rfl := Option.some.inj hrequest
  exact absurd hstarted (by decide)

end Vertz.Spec
