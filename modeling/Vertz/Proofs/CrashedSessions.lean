import Vertz.Proofs.SessionProtocol

/-!
# `Vertz.Proofs.CrashedSessions`: what holds however turns are broken off

`Held` is what is stored in a phase of the protocol; `LogInv` adds that
the ids of what has run and of what is answered are among the ids that
the model has given, in order.
-/

namespace Vertz.Proofs

open Vertz.Lib
open Vertz.Agents
open Vertz.Spec.AgentSession List

/-! ### CallsSettled histories -/

/-- What holds at each place of two lists, whatever stands around them,
holds at each place of both together. -/
theorem splits_append {α : Type} {Q : List α → α → List α → Prop} {xs ys : List α}
    (hleft : ∀ before a after, Q before a after → Q (xs ++ before) a after)
    (hright : ∀ before a after, Q before a after → Q before a (after ++ ys))
    (hxs : ∀ before a after, xs = before ++ a :: after → Q before a after)
    (hys : ∀ before a after, ys = before ++ a :: after → Q before a after) :
    ∀ before a after, xs ++ ys = before ++ a :: after → Q before a after := by
  intro before a after heq
  rcases append_eq_append_iff.mp heq with ⟨front, rfl, hrest⟩ | ⟨back, hfront, hrest⟩
  · exact hleft front a after (hys front a after hrest)
  · cases back with
    | nil =>
      rw [append_nil] at hfront
      have hhere := hleft [] a after (hys [] a after hrest.symm)
      rwa [append_nil, hfront] at hhere
    | cons a' back =>
      rw [cons_append, List.cons.injEq] at hrest
      obtain ⟨rfl, rfl⟩ := hrest
      exact hright before a back (hxs before a back hfront)

/-- Every call of the history is answered right behind it. -/
def CallsSettled (history : List Message) : Prop :=
  ∀ before m after, history = before ++ m :: after → ∀ calls, m.toolCalls = some calls →
    (∀ call ∈ calls, Named call) ∧ ∃ results rest, after = results ++ rest ∧
      results.map Message.toolCallId = calls.map ToolCall.id ∧ ∀ r ∈ results, r.role = .tool

theorem callsSettled_nil : CallsSettled [] := by
  intro before m after h
  have hlength := congrArg List.length h
  rw [length_append, length_cons, length_nil] at hlength
  omega

theorem CallsSettled.append {history more : List Message} (h : CallsSettled history)
    (hmore : CallsSettled more) : CallsSettled (history ++ more) := by
  refine splits_append (fun _ _ _ hQ => hQ) (fun before m after hQ calls hcalls => ?_) h hmore
  obtain ⟨hnamed, results, rest, rfl, hids, htool⟩ := hQ calls hcalls
  exact ⟨hnamed, results, rest ++ more, append_assoc .., hids, htool⟩

theorem CallsSettled.suffix {front history : List Message} (h : CallsSettled (front ++ history)) :
    CallsSettled history := by
  intro before m after heq
  exact h (front ++ before) m after (by rw [heq, append_assoc])

variable {history : List Message}

theorem settled_of_no_calls (h : ∀ m ∈ history, m.toolCalls = none) : CallsSettled history := by
  intro before m after heq calls hcalls
  have hnone := h m (by rw [heq]; exact mem_append_right _ (.head _))
  rw [hnone] at hcalls
  cases hcalls

variable {calls : List ToolCall} {results : List Message}

/-- A message that calls, with its results. -/
theorem settled_exchange {m : Message} (hcalls : m.toolCalls = some calls)
    (hnamed : ∀ call ∈ calls, Named call)
    (hresults : ∀ r ∈ results, r.role = .tool ∧ r.toolCalls = none)
    (hids : results.map Message.toolCallId = calls.map ToolCall.id) :
    CallsSettled (m :: results) := by
  intro before m' after heq calls' hcalls'
  cases before with
  | nil =>
    rw [nil_append, List.cons.injEq] at heq
    obtain ⟨rfl, rfl⟩ := heq
    rw [hcalls] at hcalls'
    cases hcalls'
    exact ⟨hnamed, results, [], (append_nil _).symm, hids, fun r hr => (hresults r hr).1⟩
  | cons m'' before =>
    rw [cons_append, List.cons.injEq] at heq
    exact settled_of_no_calls (fun r hr => (hresults r hr).2) before m' after heq.2 calls'
      hcalls'

/-! ### What a resumed turn finds -/

theorem findOrphan_settled (before tools : List Message) (htools : ∀ m ∈ tools, m.role = .tool)
    (h : CallsSettled (before.reverse ++ tools)) :
    findOrphan (tools.filterMap Message.toolCallId) before = [] := by
  induction before generalizing tools with
  | nil => rfl
  | cons m before ih =>
    rw [reverse_cons, append_assoc, singleton_append] at h
    unfold findOrphan
    split
    · next call calls hrole hcalls =>
        obtain ⟨-, results, rest, htail, hids, -⟩ :=
          h before.reverse m tools rfl (call :: calls) hcalls
        refine filter_eq_nil_iff.mpr fun call' hcall' => ?_
        cases hid : truthyText call'.id with
        | none => simp
        | some id =>
          have hsome : call'.id = some id := by
            unfold truthyText at hid
            exact (Option.filter_eq_some_iff.mp hid).1
          have hmem : some id ∈ results.map Message.toolCallId := by
            rw [hids, ← hsome]
            exact mem_map_of_mem hcall'
          obtain ⟨r, hr, hrid⟩ := mem_map.mp hmem
          have hlater : id ∈ tools.filterMap Message.toolCallId :=
            mem_filterMap.mpr ⟨r, by rw [htail]; exact mem_append_left _ hr, hrid⟩
          simpa using hlater
    · next hrole =>
        have hnext := ih (m :: tools) (fun m' hm' => by
          rcases mem_cons.mp hm' with rfl | hm'
          · exact hrole
          · exact htools m' hm') h
        rw [← hnext]
        congr 1
        cases hid : m.toolCallId <;> simp [hid]
    · rfl

theorem findOrphan_called {before : List Message} {m : Message} (hrole : m.role = .assistant)
    (hcalls : m.toolCalls = some calls) (hsome : calls ≠ []) (hnamed : ∀ call ∈ calls, Named call) :
    findOrphanAssistantWithToolCalls (before ++ [m]) = calls := by
  unfold findOrphanAssistantWithToolCalls
  rw [reverse_append, reverse_singleton, singleton_append]
  cases calls with
  | nil => exact absurd rfl hsome
  | cons call calls =>
    unfold findOrphan
    rw [hrole, hcalls]
    refine filter_eq_self.mpr fun call' hcall' => ?_
    obtain ⟨id, hid, hne⟩ := hnamed call' hcall'
    have htruthy : truthyText call'.id = some id := by
      rw [hid]
      simp [truthyText, hne]
    rw [htruthy]
    simp

/-! ### What is stored -/

/-- What is stored in a phase of the protocol. -/
def Held (p : Phase) (history : List Message) : Prop :=
  match p with
  | .idle => CallsSettled history
  | .replied _ => CallsSettled history
  | .called ids _ => ∃ before m calls, history = before ++ [m] ∧ CallsSettled before ∧
      m.role = .assistant ∧ m.toolCalls = some calls ∧ calls ≠ [] ∧
        (∀ call ∈ calls, Named call) ∧ idsOf calls = ids

theorem Held.settled {p : Phase} (h : Held p history) (hresting : p.resting) :
    CallsSettled history := by
  cases p with
  | idle => exact h
  | replied ids => exact h
  | called ids todo => exact hresting.elim

/-- A crash forgets the reply, and which handlers have run. -/
def crash : Phase → Phase
  | .idle => .idle
  | .replied _ => .idle
  | .called ids _ => .called ids []

theorem held_crash {p : Phase} (h : Held p history) : Held (crash p) history := by
  cases p <;> exact h

theorem Held.resumable {p : Phase} (h : Held p history) : Resumable (crash p) history := by
  have hsettled : CallsSettled history → Resumable .idle history := by
    intro hsettled
    refine .inl ⟨rfl, ?_⟩
    refine findOrphan_settled history.reverse [] (fun m hm => nomatch hm) ?_
    rw [reverse_reverse, append_nil]
    exact hsettled
  cases p with
  | idle => exact hsettled h
  | replied ids => exact hsettled h
  | called ids todo =>
    obtain ⟨before, m, calls, rfl, -, hrole, hcalls, hsome, hnamed, rfl⟩ := h
    exact .inr ⟨calls, hsome, hnamed, rfl, findOrphan_called hrole hcalls hsome hnamed⟩

/-! ### Rows -/

theorem plain_rowToMessage {m : Message} (h : Plain m) : Plain (rowToMessage m) := by
  obtain ⟨hcalls, hrole⟩ := h
  refine ⟨?_, hrole⟩
  unfold rowToMessage
  rw [hcalls]
  rfl

/-- The calls of a row. -/
def rowCalls (calls : List ToolCall) : List ToolCall :=
  calls.map fun call => { call with arguments := Js.throughJson call.arguments }

theorem rowCalls_idsOf (calls : List ToolCall) : idsOf (rowCalls calls) = idsOf calls := by
  unfold idsOf rowCalls
  rw [filterMap_map]
  rfl

theorem rowCalls_named (h : ∀ call ∈ calls, Named call) : ∀ call ∈ rowCalls calls, Named call := by
  intro call hcall
  obtain ⟨call', hcall', rfl⟩ := mem_map.mp hcall
  exact h call' hcall'

theorem truthyText_of_ne {id : String} (h : id ≠ "") : truthyText (some id) = some id := by
  simp [truthyText, h]

/-- Ids that are no empty texts are read back. -/
theorem rowIds {ids : List String} (hne : ∀ id ∈ ids, id ≠ "")
    (h : results.map Message.toolCallId = ids.map some) :
    (results.map rowToMessage).map Message.toolCallId = ids.map some := by
  induction ids generalizing results with
  | nil =>
    rw [map_nil, map_eq_nil_iff] at h
    rw [h]
    rfl
  | cons id ids ih =>
    cases results with
    | nil => cases h
    | cons r results =>
      rw [map_cons, map_cons, List.cons.injEq] at h
      obtain ⟨hid, hrest⟩ := h
      rw [map_cons, map_cons, ih (fun id hid => hne id (.tail _ hid)) hrest]
      show truthyText r.toolCallId :: _ = _
      rw [hid, truthyText_of_ne (hne id (.head _))]
      rfl

theorem idsOf_ne (hnamed : ∀ call ∈ calls, Named call) : ∀ id ∈ idsOf calls, id ≠ "" := by
  intro id hid
  obtain ⟨call, hcall, hsome⟩ := mem_filterMap.mp hid
  obtain ⟨id', hid', hne⟩ := hnamed call hcall
  rw [hsome] at hid'
  cases hid'
  exact hne

/-! ### One event -/

/-- What the durable store holds after an event. -/
def storedAfter (history : List Message) (e : Event) : List Message :=
  (applyEvent .sqlite ⟨none, history⟩ e).messages

variable {p p' : Phase}

theorem held_moves {e : Event} (h : Held p history) (hmove : Moves p e p') :
    Held p' (storedAfter history e) := by
  cases hmove with
  | reply messages hnamed => exact h
  | failed messages error => exact h
  | compress messages result => exact h
  | save userId tenantId => exact h
  | retry ids todo call => exact h
  | handle hid => exact h
  | prune hresting keepCount =>
    have hkept : CallsSettled (prune keepCount history) := by
      have hsettled := h.settled hresting
      rw [← take_append_drop (history.length - keepCount) history] at hsettled
      exact hsettled.suffix
    cases p with
    | idle => exact hkept
    | replied ids => exact hkept
    | called ids todo => exact hresting.elim
  | say hresting hplain userId tenantId =>
    refine (h.settled hresting).append (settled_of_no_calls fun m hm => ?_)
    obtain ⟨m', hm', rfl⟩ := mem_map.mp hm
    exact (plain_rowToMessage (hplain m' hm')).1
  | @call front m calls hfront hrole hcalls hsome hnamed userId tenantId =>
    refine ⟨history ++ front.map rowToMessage, rowToMessage m, rowCalls calls, ?_, ?_, hrole, ?_,
      ?_, rowCalls_named hnamed, rowCalls_idsOf calls⟩
    · show history ++ (front ++ [m]).map rowToMessage = _
      rw [map_append, append_assoc]
      rfl
    · refine CallsSettled.append h (settled_of_no_calls fun m' hm' => ?_)
      obtain ⟨m'', hm'', rfl⟩ := mem_map.mp hm'
      exact (plain_rowToMessage (hfront m'' hm'')).1
    · show m.toolCalls.map _ = _
      rw [hcalls]
      rfl
    · intro hnil
      exact hsome (map_eq_nil_iff.mp hnil)
  | @answer ids todo results hresults hids userId tenantId =>
    obtain ⟨before, m, calls, rfl, hsettled, -, hcalls, -, hnamed, rfl⟩ := h
    have hrow := rowIds (idsOf_ne hnamed) hids
    rw [idsOf_map hnamed] at hrow
    have hexchange := settled_exchange hcalls hnamed (fun r hr => by
      obtain ⟨r', hr', rfl⟩ := mem_map.mp hr
      obtain ⟨htool, hnone⟩ := hresults r' hr'
      refine ⟨htool, ?_⟩
      show r'.toolCalls.map _ = none
      rw [hnone]
      rfl) hrow
    have hall := hsettled.append hexchange
    show CallsSettled (before ++ [m] ++ results.map rowToMessage)
    rw [append_assoc]
    exact hall

/-! ### The ids of a log -/

/-- The ids whose handlers have run that are not safe to retry. -/
def handled (log : List Event) : List String :=
  log.filterMap fun e =>
    match e with
    | .handler call false => call.id
    | _ => none

/-- The ids of the results. -/
def answeredIds (history : List Message) : List String :=
  history.filterMap fun m => if m.role = .tool then m.toolCallId else none

/-- The ids whose handlers may still run. -/
def pending : Phase → List String
  | .idle => []
  | .replied ids => ids
  | .called _ todo => todo

/-- The ids whose results are still to come. -/
def owed : Phase → List String
  | .idle => []
  | .replied ids => ids
  | .called ids _ => ids

structure LogInv (p : Phase) (log : List Event) : Prop where
  held : Held p (stored .sqlite log)
  handled : List.Sublist (handled log ++ pending p) (issued log)
  answered : List.Sublist (answeredIds (stored .sqlite log) ++ owed p) (issued log)

theorem stored_snoc (log : List Event) (e : Event) :
    stored .sqlite (log ++ [e]) = storedAfter (stored .sqlite log) e := by
  unfold stored storedAfter applyEvents
  rw [foldl_append]
  show (applyEvent .sqlite _ e).messages = _
  cases e <;> rfl

theorem issued_append (log log' : List Event) : issued (log ++ log') = issued log ++ issued log' :=
  flatMap_append

theorem handled_append (log log' : List Event) :
    handled (log ++ log') = handled log ++ handled log' := filterMap_append

theorem answeredIds_append (history more : List Message) :
    answeredIds (history ++ more) = answeredIds history ++ answeredIds more :=
  filterMap_append

theorem answeredIds_plain {batch : List Message} (h : ∀ m ∈ batch, m.role ≠ .tool) :
    answeredIds batch = [] := by
  refine filterMap_eq_nil_iff.mpr fun m hm => if_neg (h m hm)

theorem answeredIds_results {ids : List String} (htool : ∀ m ∈ results, m.role = .tool)
    (h : results.map Message.toolCallId = ids.map some) : answeredIds results = ids := by
  induction ids generalizing results with
  | nil =>
    rw [map_nil, map_eq_nil_iff] at h
    rw [h]
    rfl
  | cons id ids ih =>
    cases results with
    | nil => cases h
    | cons r results =>
      rw [map_cons, map_cons, List.cons.injEq] at h
      unfold answeredIds
      rw [filterMap_cons_some (b := id) (by rw [if_pos (htool r (.head _)), h.1])]
      exact congrArg _ (ih (fun m hm => htool m (.tail _ hm)) h.2)

theorem moves_pending {e : Event} (hmove : Moves p e p') :
    List.Sublist (handled [e] ++ pending p') (pending p ++ issued [e]) := by
  cases hmove with
  | reply messages hnamed =>
    show List.Sublist ([] ++ idsOf _) ([] ++ (idsOf _ ++ []))
    rw [nil_append, nil_append, append_nil]
  | failed messages error => exact .slnil
  | compress messages result => exact sublist_append_left ..
  | save userId tenantId => exact sublist_append_left ..
  | retry ids todo call => exact sublist_append_left ..
  | @handle ids skipped todo call id hid =>
    have hone : handled [.handler call false] = [id] := filterMap_cons_some hid
    rw [hone, pending, pending]
    show List.Sublist (id :: todo) ((skipped ++ id :: todo) ++ [])
    rw [append_nil]
    exact sublist_append_right ..
  | prune hresting keepCount => exact sublist_append_left ..
  | say hresting hplain userId tenantId => exact nil_sublist _
  | call hfront hrole hcalls hsome hnamed userId tenantId => exact sublist_append_left ..
  | answer hresults hids userId tenantId => exact nil_sublist _

theorem moves_owed {e : Event} (h : Held p history) (hmove : Moves p e p') :
    List.Sublist (answeredIds (storedAfter history e) ++ owed p')
      (answeredIds history ++ (owed p ++ issued [e])) := by
  have hsame : ∀ more : List Message, (∀ m ∈ more, m.role ≠ .tool) →
      answeredIds (history ++ storedMessages .sqlite more) = answeredIds history := by
    intro more hmore
    have hnone : answeredIds (storedMessages .sqlite more) = [] := by
      refine answeredIds_plain fun m hm => ?_
      obtain ⟨m', hm', rfl⟩ := mem_map.mp hm
      exact hmore m' hm'
    rw [answeredIds_append, hnone, append_nil]
  cases hmove with
  | reply messages hnamed =>
    refine List.Sublist.append_left ?_ _
    show List.Sublist (idsOf _) ([] ++ (idsOf _ ++ []))
    rw [nil_append, append_nil]
  | failed messages error => exact .refl _
  | compress messages result => exact (sublist_append_left ..).append_left _
  | save userId tenantId => exact (sublist_append_left ..).append_left _
  | retry ids todo call => exact (sublist_append_left ..).append_left _
  | handle hid => exact (sublist_append_left ..).append_left _
  | prune hresting keepCount =>
    exact ((drop_sublist ..).filterMap _).append (sublist_append_left ..)
  | say hresting hplain userId tenantId =>
    show List.Sublist (answeredIds (history ++ storedMessages .sqlite _) ++ []) _
    rw [hsame _ fun m hm => (hplain m hm).2, append_nil]
    exact sublist_append_left ..
  | @call front m calls hfront hrole hcalls hsome hnamed userId tenantId =>
    show List.Sublist (answeredIds (history ++ storedMessages .sqlite _) ++ _) _
    rw [hsame]
    · exact (sublist_append_left ..).append_left _
    · intro m' hm'
      rcases mem_append.mp hm' with hm' | hm'
      · exact (hfront m' hm').2
      · rw [mem_singleton.mp hm', hrole]
        nofun
  | @answer ids todo results hresults hids userId tenantId =>
    obtain ⟨before, m, calls, -, -, -, -, -, hnamed, rfl⟩ := h
    have hrow := answeredIds_results (fun r hr => by
      obtain ⟨r', hr', rfl⟩ := mem_map.mp hr
      exact (hresults r' hr').1) (rowIds (idsOf_ne hnamed) hids)
    show List.Sublist (answeredIds (history ++ results.map rowToMessage) ++ []) _
    rw [answeredIds_append, hrow, append_nil]
    exact (sublist_append_left ..).append_left _

/-- What an event stores, runs and issues. -/
theorem logInv_moves {e : Event} {log : List Event} (h : LogInv p log) (hmove : Moves p e p') :
    LogInv p' (log ++ [e]) := by
  refine ⟨?_, ?_, ?_⟩
  · rw [stored_snoc]
    exact held_moves h.held hmove
  · rw [handled_append, issued_append, append_assoc]
    have hstep := (moves_pending hmove).append_left (handled log)
    rw [← append_assoc (handled log) (pending p)] at hstep
    exact hstep.trans (h.handled.append_right _)
  · rw [stored_snoc, issued_append]
    have hstep := moves_owed h.held hmove
    rw [← append_assoc] at hstep
    exact hstep.trans (h.answered.append_right _)

theorem logInv_crash {p : Phase} {log : List Event} (h : LogInv p log) : LogInv (crash p) log := by
  refine ⟨held_crash h.held, ?_, ?_⟩
  · refine List.Sublist.trans ?_ h.handled
    refine List.Sublist.append_left ?_ _
    cases p <;> exact nil_sublist _
  · refine List.Sublist.trans ?_ h.answered
    refine List.Sublist.append_left ?_ _
    cases p with
    | idle => exact .refl _
    | replied ids => exact nil_sublist _
    | called ids todo => exact .refl _

/-! ### Sessions -/

/-- The protocol of a session: the turn may have been broken off before
the event. -/
def MovesOn (p : Phase) (e : Event) (p' : Phase) : Prop := Moves p e p' ∨ Moves (crash p) e p'

theorem crash_crash (p : Phase) : crash (crash p) = crash p := by
  cases p <;> rfl

theorem logInv_movesOn {es : List Event} {log : List Event} (h : LogInv p log)
    (hfollow : Effects.Follow MovesOn p es p') : LogInv p' (log ++ es) := by
  induction hfollow generalizing log with
  | nil => rwa [append_nil]
  | @cons p p₁ p' e es hone _ ih =>
    have hnext : LogInv p₁ (log ++ [e]) := by
      rcases hone with hmove | hmove
      · exact logInv_moves h hmove
      · exact logInv_moves (logInv_crash h) hmove
    rw [← singleton_append, ← append_assoc]
    exact ih hnext

theorem movesOn_of_moves {es : List Event} (h : Effects.Follow Moves p es p') :
    Effects.Follow MovesOn p es p' := by
  induction h with
  | nil => exact .nil _
  | cons hone _ ih => exact .cons (.inl hone) ih

/-- The events of a turn after a crash are events of the session. -/
theorem movesOn_of_crash {es : List Event} (h : Effects.Follow Moves (crash p) es p') :
    ∃ p'', crash p'' = crash p' ∧ Effects.Follow MovesOn p es p'' := by
  cases h with
  | nil => exact ⟨p, (crash_crash p).symm, .nil p⟩
  | cons hone hrest => exact ⟨p', rfl, .cons (.inr hone) (movesOn_of_moves hrest)⟩

theorem logInv_nil : LogInv .idle [] := ⟨callsSettled_nil, .slnil, .slnil⟩

/-- A turn of a session, and where it ends when it is not broken off. -/
theorem turn_follows {json : Json} {sessionId : String} {earlier : List Turn} {turn : Turn}
    {p : Phase} (hearlier : Effects.Follow MovesOn .idle
      (sessionLog json .sqlite sessionId earlier) p)
    (hfits : ∀ e ∈ sessionLog json .sqlite sessionId (turn :: earlier), Fits e) :
    let last := runTurn json .sqlite (resumedId sessionId earlier)
      (applyEvents .sqlite .empty (sessionLog json .sqlite sessionId earlier)) turn
    ∃ p', Effects.Follow Moves (crash p) (last.events.take turn.cut) p' ∧
      (last.events.length ≤ turn.cut → ∀ result, last.result = .ok result → p'.resting) := by
  intro last
  have hinv := logInv_movesOn logInv_nil hearlier
  have hnew : resumedId sessionId earlier = none → crash p = .idle := by
    intro hnone
    cases earlier with
    | nil =>
      cases hearlier
      rfl
    | cons turn' earlier => cases hnone
  obtain ⟨t, hfollow, hresult⟩ := run_keeps json turn.agent
    (inSession turn.opts .sqlite (resumedId sessionId earlier)) rfl hinv.held.resumable hnew
  have hlast : ∀ e ∈ last.events.take turn.cut, Fits e :=
    fun e he => hfits e (mem_append_right _ he)
  by_cases hwhole : last.events.length ≤ turn.cut
  · rw [take_of_length_le hwhole] at hlast ⊢
    obtain ⟨p', rfl, hmoves⟩ := hfollow.of_fits hlast
    exact ⟨p', hmoves, fun _ result hok => hresult result hok p' rfl⟩
  · obtain ⟨t', htaken⟩ := hfollow.take turn.cut
    obtain ⟨p', -, hmoves⟩ := htaken.of_fits hlast
    exact ⟨p', hmoves, fun hlong => absurd hlong hwhole⟩

/-- The log of a session keeps to the protocol, with crashes in between. -/
theorem session_follows {json : Json} {sessionId : String} {turns : List Turn}
    (hfits : ∀ e ∈ sessionLog json .sqlite sessionId turns, Fits e) :
    ∃ p, Effects.Follow MovesOn .idle (sessionLog json .sqlite sessionId turns) p := by
  induction turns with
  | nil => exact ⟨.idle, .nil _⟩
  | cons turn earlier ih =>
    obtain ⟨p, hearlier⟩ := ih fun e he => hfits e (mem_append_left _ he)
    obtain ⟨p', hmoves, -⟩ := turn_follows hearlier hfits
    obtain ⟨p'', -, hturn⟩ := movesOn_of_crash hmoves
    exact ⟨p'', hearlier.append hturn⟩

/-! ### Crash consistency -/

theorem length_handles (id : String) (log : List Event) :
    (log.filter (handles id)).length = (handled log).count id := by
  induction log with
  | nil => rfl
  | cons e log ih =>
    have hother : handles id e = false → handled (e :: log) = handled log →
        ((e :: log).filter (handles id)).length = (handled (e :: log)).count id := by
      intro hhandles hhandled
      rw [filter_cons, hhandles, hhandled]
      exact ih
    cases e with
    | handler call safe =>
      cases safe with
      | true => exact hother rfl rfl
      | false =>
        cases hid : call.id with
        | none =>
          refine hother ?_ (filterMap_cons_none hid)
          simp [handles, hid]
        | some id' =>
          have hcons : handled (.handler call false :: log) = id' :: handled log :=
            filterMap_cons_some hid
          rw [hcons, filter_cons, count_cons, ← ih]
          by_cases heq : id' = id
          · simp [handles, hid, heq]
          · simp [handles, hid, heq]
    | _ => exact hother rfl rfl

theorem length_resultsWith (id : String) (history : List Message) :
    (resultsWith id history).length = (answeredIds history).count id := by
  induction history with
  | nil => rfl
  | cons m history ih =>
    unfold resultsWith answeredIds at ih ⊢
    by_cases hrole : m.role = .tool
    · cases hid : m.toolCallId with
      | none => simp [hrole, hid, ih]
      | some id' =>
        rw [filterMap_cons_some (b := id') (by rw [if_pos hrole, hid]), count_cons,
          ← ih]
        by_cases heq : id' = id <;> simp [hrole, hid, heq]
    · simp [hrole, ih]

theorem results_of_ids (hids : results.map Message.toolCallId = calls.map ToolCall.id)
    (htool : ∀ r ∈ results, r.role = .tool) : List.Forall₂ ResultOf calls results := by
  induction calls generalizing results with
  | nil =>
    rw [map_nil, map_eq_nil_iff] at hids
    rw [hids]
    exact .nil
  | cons call calls ih =>
    cases results with
    | nil => cases hids
    | cons r results =>
      rw [map_cons, map_cons, List.cons.injEq] at hids
      refine .cons ⟨htool r (.head _), fun id hid => hids.1.trans hid⟩ ?_
      exact ih hids.2 fun r hr => htool r (.tail _ hr)

theorem answered_of_settled (h : CallsSettled history) (hnodup : (answeredIds history).Nodup) :
    Answered history := by
  refine ⟨fun before m after calls heq hcalls => ?_, fun m hm calls hcalls call hcall id hid => ?_⟩
  · obtain ⟨-, results, rest, hafter, hids, htool⟩ := h before m after heq calls hcalls
    exact ⟨results, rest, hafter, results_of_ids hids htool⟩
  · obtain ⟨before, after, heq⟩ := append_of_mem hm
    obtain ⟨-, results, rest, hafter, hids, htool⟩ := h before m after heq calls hcalls
    have hmem : some id ∈ results.map Message.toolCallId := by
      rw [hids, ← hid]
      exact mem_map_of_mem hcall
    obtain ⟨r, hr, hrid⟩ := mem_map.mp hmem
    have hanswered : id ∈ answeredIds history := by
      refine mem_filterMap.mpr ⟨r, ?_, by rw [if_pos (htool r hr), hrid]⟩
      rw [heq, hafter]
      simp [hr]
    rw [length_resultsWith]
    exact count_eq_one_of_mem hnodup hanswered

theorem idle_of_chat {messages : List Message} {reply : Except String LLMResponse}
    (hmove : Moves p (.chat messages reply) p') : p = .idle := by
  generalize he : Event.chat messages reply = e at hmove
  cases hmove <;> first | rfl | cases he

theorem settled_before_chat {messages : List Message} {reply : Except String LLMResponse}
    (h : Held p history) (hmove : MovesOn p (.chat messages reply) p') : CallsSettled history := by
  cases p with
  | idle => exact h
  | replied ids => exact h
  | called ids todo => rcases hmove with hmove | hmove <;> cases idle_of_chat hmove

/-- An orderly session is crash consistent. -/
theorem crash_consistent (json : Json) (sessionId : String) (turns : List Turn)
    (h : Orderly (sessionLog json .sqlite sessionId turns)) :
    CrashConsistent (sessionLog json .sqlite sessionId turns) := by
  obtain ⟨p, hfollow⟩ := session_follows h.fits
  refine ⟨fun id => ?_, fun before messages reply after heq => ?_⟩
  · have hinv := logInv_movesOn logInv_nil hfollow
    rw [length_handles]
    exact nodup_iff_count_le_one.mp
      (h.distinct.sublist ((sublist_append_left ..).trans hinv.handled)) id
  · have hissued := h.distinct
    rw [heq] at hfollow hissued
    obtain ⟨p₁, hbefore, hrest⟩ := hfollow.split
    have hinv := logInv_movesOn logInv_nil hbefore
    rw [nil_append] at hinv
    rw [issued_append] at hissued
    refine answered_of_settled ?_ ?_
    · cases hrest with
      | cons hone _ => exact settled_before_chat hinv.held hone
    · exact (nodup_append.mp hissued).1.sublist
        ((sublist_append_left ..).trans hinv.answered)

/-- A turn that is broken off behind its first write and a handler, and a
turn that resumes it. -/
def brokenOff : Turn := ⟨lookingAgent, lookingOptions, 3⟩

def resumed : Turn :=
  ⟨lookingAgent, { lookingOptions with llm := fun _ _ => .ok ⟨"done", [], none⟩ }, 10⟩

theorem crash_consistent_behind_handler :
    Orderly (sessionLog sameText .sqlite "s1" [resumed, brokenOff]) ∧
      CrashConsistent (sessionLog sameText .sqlite "s1" [resumed, brokenOff]) := by
  have horderly : Orderly (sessionLog sameText .sqlite "s1" [resumed, brokenOff]) :=
    ⟨by decide, by decide⟩
  exact ⟨horderly, crash_consistent sameText "s1" [resumed, brokenOff] horderly⟩

/-- The same model, that gives its call no id. -/
def unnamed : Turn :=
  ⟨lookingAgent,
    { lookingOptions with llm := fun _ _ => .ok ⟨"", [⟨none, "look", .null⟩], none⟩ }, 2⟩

/-- A call without an id is stored, the turn is broken off, and the model
is asked again while the call has no result. -/
theorem unnamed_call_unanswered :
    ¬ CrashConsistent (sessionLog sameText .sqlite "s1" [resumed, unnamed]) := by
  intro h
  have hanswered := h.answered ((sessionLog sameText .sqlite "s1" [resumed, unnamed]).take 2) _ _
    ((sessionLog sameText .sqlite "s1" [resumed, unnamed]).drop 3) rfl
  obtain ⟨results, rest, hafter, hresults⟩ :=
    hanswered.behind [.plain .user "look around"] _ [] _ rfl rfl
  cases hresults with
  | cons _ _ => cases hafter

end Vertz.Proofs
