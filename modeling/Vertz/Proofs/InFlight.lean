import Vertz.Proofs.FreshEntries

/-!
# `Vertz.Proofs.InFlight`: which fetches are registered

A registration ends in two ways: a query of the key is refetched or
disposed, or the handlers of a settled promise run. The handlers erase by
key. `Joins` says what every other step does for a registered key, one
lemma for each operation.

`own_key_run` is the result for whole runs. In `refetched_fetch_forgotten`
a query is refetched before its first fetch has settled.
-/

namespace Vertz.Spec

open Vertz.Ui.Query.Client
open Vertz.Lib Vertz.Ui.Query List

variable {V E : Type}

/-- The registration of the key is kept, and who starts a fetch for the key
waits for it. -/
structure Joins (key : String) (promise : ℕ) (old new : Client V E) : Prop where
  inflight : old.inflight.get? key = some promise → new.inflight.get? key = some promise
  reactions : ∃ added, new.reactions = old.reactions ++ added ∧
    (old.inflight.get? key = some promise →
      ∀ reaction ∈ added, reaction.key = key → reaction.promise = promise)

namespace Joins

variable {key : String} {promise : ℕ} {a b c : Client V E}

theorem of_eq (hinflight : b.inflight = a.inflight) (hreactions : b.reactions = a.reactions) :
    Joins key promise a b :=
  ⟨fun h => hinflight ▸ h, [], by rw [hreactions, append_nil],
    fun _ _ hmem => by cases hmem⟩

theorem refl (a : Client V E) : Joins key promise a a := .of_eq rfl rfl

theorem trans (hab : Joins key promise a b) (hbc : Joins key promise b c) :
    Joins key promise a c := by
  obtain ⟨hinflight, added, hadded, hjoins⟩ := hab
  obtain ⟨hinflight', added', hadded', hjoins'⟩ := hbc
  refine ⟨fun h => hinflight' (hinflight h), added ++ added', ?_, fun h reaction hmem hkey => ?_⟩
  · rw [hadded', hadded, append_assoc]
  · rcases mem_append.mp hmem with hmem | hmem
    · exact hjoins h reaction hmem hkey
    · exact hjoins' (hinflight h) reaction hmem hkey

theorem wait {reaction : Reaction}
    (hinflight : a.inflight.get? key = some promise → b.inflight.get? key = some promise)
    (hreactions : b.reactions = a.reactions ++ [reaction])
    (hjoins : a.inflight.get? key = some promise → reaction.key = key →
      reaction.promise = promise) : Joins key promise a b :=
  ⟨hinflight, [reaction], hreactions, fun h _ hmem => mem_singleton.mp hmem ▸ hjoins h⟩

/-- The reactions that a step adds for the key. -/
theorem mem_drop (h : Joins key promise a b) (hkey : a.inflight.get? key = some promise)
    {reaction : Reaction} (hmem : reaction ∈ b.reactions.drop a.reactions.length)
    (hreaction : reaction.key = key) : reaction.promise = promise := by
  obtain ⟨added, hadded, hjoins⟩ := h.reactions
  rw [hadded, drop_left] at hmem
  exact hjoins hkey reaction hmem hreaction

end Joins

section Operations

variable {key : String} {promise : ℕ} (client : Client V E) (i : ℕ) (q : QueryInstance V E)

theorem joins_join {existing : ℕ} {key' : String}
    (h : client.inflight.get? key' = some existing) :
    Joins key promise client (client.join i q existing key') := by
  refine .wait id rfl fun hkey heq => ?_
  obtain rfl : key' = key := heq
  exact Option.some.inj (h.symm.trans hkey)

theorem joins_startFetch (fetchPromise : ℕ) (key' : String) :
    Joins key promise client (client.startFetch i q fetchPromise key') := by
  simp only [startFetch]
  split
  · next existing hexisting =>
      refine .wait id rfl fun hkey heq => ?_
      obtain rfl : key' = key := heq
      exact Option.some.inj (hexisting.symm.trans hkey)
  · next hnone =>
      -- the new registration is under another key
      have hne : client.inflight.get? key = some promise → key' ≠ key := by
        rintro hkey rfl
        rw [hnone] at hkey
        cases hkey
      refine .wait (fun hkey => ?_) rfl fun hkey heq => absurd heq (hne hkey)
      show (client.inflight.insert key' fetchPromise).get? key = some promise
      rw [Record.get?_insert, if_neg (hne hkey)]
      exact hkey

theorem joins_fetchOrServe (effectKey : Option String) (fetchPromise : ℕ) (key' : String) :
    Joins key promise client (client.fetchOrServe i q effectKey fetchPromise key') := by
  simp only [fetchOrServe]
  split
  · next existing hexisting =>
      refine joins_join client i q ?_
      rw [derivedInflight] at hexisting
      split at hexisting
      · exact hexisting
      · cases hexisting
  · split
    · exact .of_eq rfl rfl
    · split
      · exact .of_eq rfl rfl
      · exact joins_startFetch _ _ _ _ _

theorem joins_started (effectKey : Option String) :
    Joins key promise client (client.started i q effectKey) := by
  have hrequest : Joins key promise client
      (client.request (q.prepare effectKey).resolveCurrentCacheKey) := .of_eq rfl rfl
  exact hrequest.trans (joins_fetchOrServe _ _ _ _ _ _)

theorem joins_effect (thunk : Thunk) : Joins key promise client (client.effect i q thunk) := by
  simp only [effect]
  split
  · next existing key' hcustom =>
      refine joins_join client i q ?_
      rw [customInflight] at hcustom
      split at hcustom
      · obtain ⟨registered, hregistered, heq⟩ := Option.map_eq_some_iff.mp hcustom
        obtain ⟨rfl, rfl⟩ := Prod.mk.inj heq
        exact hregistered
      · cases hcustom
  · split
    · exact .of_eq rfl rfl
    · exact joins_started _ _ _ _
    · next depHash descriptorKey entity =>
        have hadopt : Joins key promise client
            (client.adoptEntity i { q with depHash := depHash } entity).1 := by
          simp only [adoptEntity]
          split
          · exact .of_eq rfl rfl
          · exact .refl _
        exact hadopt.trans (joins_started _ _ _ _)

theorem joins_rerun (thunk : Thunk) : Joins key promise client (client.rerun i thunk) := by
  simp only [rerun]
  split
  · split
    · exact .refl _
    · exact joins_effect _ _ _ _
  · exact .refl _

theorem joins_refetch (thunk : Thunk) (h : SparesRefetch client key i) :
    Joins key promise client (client.refetch i thunk) := by
  simp only [refetch]
  split
  · next q hq =>
      have hclear : Joins key promise client (client.clearKey q.resolveCurrentCacheKey) := by
        refine ⟨fun hkey => ?_, [], (append_nil _).symm, fun _ _ hmem => by cases hmem⟩
        rw [clearKey, Record.get?_erase, if_neg fun heq => h q hq heq.symm]
        exact hkey
      exact hclear.trans (joins_rerun _ _ _)
  · exact .refl _

theorem joins_refetches (callbacks : List ℕ) (thunks : ℕ → Thunk)
    (h : Along (fun client i => client.refetch i (thunks i))
      (fun client i => SparesRefetch client key i) client callbacks) :
    Joins key promise client
      (callbacks.foldl (fun client i => client.refetch i (thunks i)) client) := by
  induction callbacks generalizing client with
  | nil => exact .refl _
  | cons i callbacks ih => exact (joins_refetch client i (thunks i) h.1).trans (ih _ h.2)

theorem joins_query (options : QueryOptions) (thunk : Thunk) :
    Joins key promise client (client.query options thunk) := by
  have hcreated : Joins key promise client
      { client with queries := client.queries ++ [options.instance] } := .of_eq rfl rfl
  simp only [query]
  split
  · exact (hcreated.trans (joins_effect _ _ _ _)).trans (.of_eq rfl rfl)
  · exact hcreated.trans (joins_effect _ _ _ _)

theorem joins_debounced : Joins key promise client (client.debounced i) := by
  simp only [debounced]
  split
  · split
    · exact joins_startFetch _ _ _ _ _
    · exact .refl _
  · exact .refl _

theorem joins_dispose (h : ∀ q ∈ client.queries[i]?, key ∉ q.inflightKeys) :
    Joins key promise client (client.dispose i) := by
  simp only [dispose]
  split
  · next q hq =>
      refine ⟨fun hkey => ?_, [], (append_nil _).symm, fun _ _ hmem => by cases hmem⟩
      show (q.inflightKeys.foldl Record.erase client.inflight).get? key = some promise
      rw [Record.get?_foldl_erase, if_neg (h q hq)]
      exact hkey
  · exact .refl _

end Operations

variable {client : Client V E}

/-- Every step but the handlers of a promise keeps a registration that it
spares. -/
theorem joins_step {step : ClientStep V E} {key : String} {promise : ℕ}
    (hspares : Spares client key step) (hstep : ∀ position, step ≠ .react position) :
    Joins key promise client (clientStep client step) := by
  cases step with
  | query options thunk => exact joins_query client options thunk
  | dependency i thunk => exact joins_rerun client i thunk
  | refetch i thunk => exact joins_refetch client i thunk hspares
  | debounced i => exact joins_debounced client i
  | settle promise outcome => exact .of_eq rfl rfl
  | react position => exact absurd rfl (hstep position)
  | emit entityType thunks =>
    have hbump : Joins key promise client
        { client with bus := client.bus.bump entityType } := .of_eq rfl rfl
    exact hbump.trans (joins_refetches _ _ thunks hspares)
  | dispose i => exact joins_dispose client i hspares
  | evict key => exact .of_eq rfl rfl

/-- The handlers of a promise that has not settled do not run. Those of a
settled one erase the registration of their key. -/
theorem react_inflight (client : Client V E) (position : ℕ) :
    ((client.react position).inflight = client.inflight ∧
      ∀ reaction q, client.reactions[position]? = some reaction →
        ¬ Unsettled client reaction.promise → client.queries[reaction.query]? ≠ some q) ∨
    ∃ reaction q, client.reactions[position]? = some reaction ∧
      ¬ Unsettled client reaction.promise ∧ client.queries[reaction.query]? = some q ∧
      (client.react position).inflight = client.inflight.erase reaction.key := by
  rw [react]
  cases hreaction : client.reactions[position]? with
  | none => exact .inl ⟨rfl, fun _ _ h => by cases h⟩
  | some reaction =>
    cases houtcome : (client.requests[reaction.promise]?).bind Request.outcome with
    | none =>
      refine .inl ⟨by simp only [houtcome], fun reaction' _ h hsettled => ?_⟩
      obtain rfl := Option.some.inj h
      exact absurd houtcome hsettled
    | some outcome =>
      have hsettled : ¬ Unsettled client reaction.promise := fun h => by
        rw [Unsettled, houtcome] at h
        cases h
      simp only [houtcome, handle]
      cases hq : client.queries[reaction.query]? with
      | none =>
        refine .inl ⟨rfl, fun reaction' q h _ hsome => ?_⟩
        obtain rfl := Option.some.inj h
        rw [hq] at hsome
        cases hsome
      | some q =>
        refine .inr ⟨reaction, q, rfl, hsettled, hq, ?_⟩
        by_cases hid : reaction.id = q.fetchId
        · simp only [hid, ne_eq, not_true_eq_false, if_false]
          cases outcome with
          | ok value => rfl
          | error e => rfl
        · simp only [hid, ne_eq, not_false_eq_true, if_true]
          rfl

theorem react_requests (client : Client V E) (position : ℕ) :
    (client.react position).requests = client.requests := by
  simp only [react, handle]
  split
  · rfl
  · split
    · rfl
    · split
      · rfl
      · split
        · rfl
        · split <;> rfl

theorem react_reactions (client : Client V E) (position : ℕ) :
    (client.react position).reactions.length ≤ client.reactions.length := by
  have herase := length_eraseIdx_le client.reactions position
  simp only [react, handle]
  split
  · exact Nat.le_refl _
  · split
    · exact Nat.le_refl _
    · split
      · exact herase
      · split
        · exact herase
        · split <;> exact herase

theorem DropsOnly.unsettled {old new : Client V E} {promise : ℕ} (h : DropsOnly old new)
    (hnew : Unsettled new promise) : Unsettled old promise := by
  rw [Unsettled, Option.bind_eq_none_iff] at hnew ⊢
  intro request hrequest
  obtain ⟨request', hrequest', _, houtcome⟩ := h.requests promise request hrequest
  cases hsettled : request.outcome with
  | none => rfl
  | some outcome =>
    have hkept := houtcome outcome hsettled
    rw [hnew request' hrequest'] at hkept
    cases hkept

/-- A promise that is unsettled was so before. -/
theorem unsettled_of_step {step : ClientStep V E} {promise : ℕ}
    (h : Unsettled (clientStep client step) promise) : Unsettled client promise := by
  cases step with
  | query options thunk => exact (dropsOnly_query client options thunk).unsettled h
  | dependency i thunk => exact (dropsOnly_rerun client i thunk).unsettled h
  | refetch i thunk => exact (dropsOnly_refetch client i thunk).unsettled h
  | debounced i => exact (dropsOnly_debounced client i).unsettled h
  | settle settled outcome => exact (dropsOnly_settle client settled outcome).unsettled h
  | react position =>
    rw [Unsettled, clientStep, react_requests] at h
    exact h
  | emit entityType thunks =>
    have hbumped := (dropsOnly_refetches { client with bus := client.bus.bump entityType }
      (client.bus.subscribers entityType) thunks).unsettled h
    exact hbumped
  | dispose i => exact (dropsOnly_dispose client i).unsettled h
  | evict key => exact (dropsOnly_evict client key).unsettled h

theorem unsettled_of_run (steps : List (ClientStep V E)) {promise : ℕ}
    (h : Unsettled (steps.foldl clientStep client) promise) : Unsettled client promise := by
  induction steps generalizing client with
  | nil => exact h
  | cons step steps ih => exact unsettled_of_step (ih h)

/-- The registry owes a fetch nothing else than that the handlers of other
promises leave it alone. -/
theorem keepsRegistered_iff (client : Client V E) (step : ClientStep V E) :
    KeepsRegistered client step ↔ OwnKey client step := by
  constructor
  · intro h
    cases step with
    | react position =>
      intro reaction q hreaction hsettled hq promise hpromise
      by_contra hother
      have hkept := h.removes position reaction reaction.key promise rfl hreaction hpromise hother
      rcases react_inflight client position with
        ⟨_, hnone⟩ | ⟨reaction', q', hreaction', _, _, herased⟩
      · exact hnone reaction q hreaction hsettled hq
      · obtain rfl := Option.some.inj (hreaction.symm.trans hreaction')
        rw [clientStep, herased, Record.get?_erase, if_pos rfl] at hkept
        cases hkept
    | _ => trivial
  · intro hown
    -- what the handlers leave registered
    have hreact : ∀ position key promise, step = .react position →
        client.inflight.get? key = some promise →
        (∀ reaction, client.reactions[position]? = some reaction →
          ¬ Unsettled client reaction.promise → promise ≠ reaction.promise) →
        (clientStep client step).inflight.get? key = some promise := by
      rintro position key promise rfl hpromise hother
      rcases react_inflight client position with
        ⟨hsame, _⟩ | ⟨reaction, q, hreaction, hsettled, hq, herased⟩
      · rw [clientStep, hsame]
        exact hpromise
      · have hne : key ≠ reaction.key := by
          rintro rfl
          exact hother reaction hreaction hsettled
            (hown reaction q hreaction hsettled hq promise hpromise)
        rw [clientStep, herased, Record.get?_erase, if_neg hne]
        exact hpromise
    refine ⟨fun position reaction key promise hstep hreaction hpromise hother => ?_,
      fun key promise hpromise hspares hunsettled => ?_,
      fun key promise hpromise hspares reaction hmem hkey => ?_⟩
    · refine hreact position key promise hstep hpromise fun reaction' hreaction' _ => ?_
      obtain rfl := Option.some.inj (hreaction.symm.trans hreaction')
      exact hother
    · by_cases hstep : ∃ position, step = .react position
      · obtain ⟨position, hstep⟩ := hstep
        refine hreact position key promise hstep hpromise fun reaction _ hsettled => ?_
        rintro rfl
        exact hsettled (unsettled_of_step hunsettled)
      · exact (joins_step hspares (not_exists.mp hstep)).inflight hpromise
    · by_cases hstep : ∃ position, step = .react position
      · obtain ⟨position, rfl⟩ := hstep
        rw [clientStep, drop_eq_nil_of_le (react_reactions client position)] at hmem
        cases hmem
      · exact (joins_step hspares (not_exists.mp hstep)).mem_drop hpromise hmem hkey

theorem stays_along {during : List (ClientStep V E)} {key : String} {promise : ℕ}
    (hkeeps : Along clientStep KeepsRegistered client during)
    (hspares : Along clientStep (fun client step => Spares client key step) client during)
    (hunsettled : Unsettled (during.foldl clientStep client) promise)
    (hpromise : client.inflight.get? key = some promise) :
    (during.foldl clientStep client).inflight.get? key = some promise := by
  induction during generalizing client with
  | nil => exact hpromise
  | cons step during ih =>
    have hstep : Unsettled (clientStep client step) promise := unsettled_of_run during hunsettled
    exact ih hkeeps.2 hspares.2 hunsettled (hkeeps.1.stays key promise hpromise hspares.1 hstep)

/-- The registry keeps its promise exactly in the runs in which handlers
find no other promise than their own under their key. -/
theorem own_key_run (steps : List (ClientStep V E)) :
    Along clientStep KeepsRegistered {} steps ∧ StaysRegistered steps ↔
      Along clientStep OwnKey {} steps := by
  have hiff : Along clientStep KeepsRegistered {} steps ↔ Along clientStep OwnKey {} steps :=
    along_iff (I := fun _ => True) (fun client step _ => keepsRegistered_iff client step)
      (fun _ _ _ _ => trivial) steps trivial
  rw [← hiff]
  refine and_iff_left_of_imp fun hkeeps before during hprefix key promise hpromise hspares
    hunsettled => ?_
  obtain ⟨after, rfl⟩ := hprefix
  rw [foldl_append] at hunsettled ⊢
  have hduring := (along_append.mp (along_append.mp hkeeps).1).2
  exact stays_along hduring hspares hunsettled hpromise

/-- A query is refetched while its first request is in flight. The response
of the first takes the registration of the second away, and the next query
of the key sends a third. -/
theorem refetched_fetch_forgotten :
    ¬ ∀ steps : List (ClientStep ℕ String),
      Along clientStep KeepsRegistered {} steps ∧ StaysRegistered steps := by
  intro h
  have hrun := (h [.query { key := some "tasks", baseKey := "tasks" } (.promise ""),
    .refetch 0 (.promise ""), .settle 0 (.ok 1), .react 0]).1
  have hkept := hrun.2.2.2.1.removes 0 ⟨0, 0, 1, "tasks"⟩ "tasks" 1 rfl rfl rfl (by decide)
  revert hkept
  decide

end Vertz.Spec
