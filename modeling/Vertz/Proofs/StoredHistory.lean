import Vertz.Proofs.CrashedSessions

/-!
# `Vertz.Proofs.StoredHistory`: stored histories stay well formed
-/

namespace Vertz.Proofs

open Vertz.Lib
open Vertz.Agents
open Vertz.Spec.AgentSession
open Vertz.Spec.AgentHistory List ReactLoop

/-! ### Pairs -/

theorem pairedBehind_before {m : Message} {before : List Message} (h : PairedBehind before m)
    (more : List Message) : PairedBehind (more ++ before) m := by
  obtain ⟨front, caller, results, id, rfl, hissues, hid, htool⟩ := h
  exact ⟨more ++ front, caller, results, id, (append_assoc ..).symm, hissues, hid, htool⟩

theorem paired_append {history more : List Message} (h : ResultsPaired history)
    (hmore : ResultsPaired more) : ResultsPaired (history ++ more) :=
  splits_append (fun _ _ _ hQ hrole => pairedBehind_before (hQ hrole) history)
    (fun _ _ _ hQ => hQ) h hmore

variable {history : List Message}

theorem paired_of_no_results (h : ∀ m ∈ history, m.role ≠ .tool) : ResultsPaired history := by
  intro before m after heq hrole
  exact absurd hrole (h m (by rw [heq]; exact mem_append_right _ (.head _)))

theorem paired_front {history more : List Message} (h : ResultsPaired (history ++ more)) :
    ResultsPaired history := by
  intro before m after heq
  exact h before m (after ++ more) (by rw [heq, append_assoc]; rfl)

/-- A message that calls, with its results. -/
theorem paired_exchange {m : Message} {calls : List ToolCall} {results : List Message}
    (hrole : m.role = .assistant) (hcalls : m.toolCalls = some calls)
    (hnamed : ∀ call ∈ calls, Named call) (htool : ∀ r ∈ results, r.role = .tool)
    (hids : results.map Message.toolCallId = calls.map ToolCall.id) :
    ResultsPaired (m :: results) := by
  intro before r after heq hresult
  cases before with
  | nil =>
    rw [nil_append, List.cons.injEq] at heq
    rw [← heq.1, hrole] at hresult
    cases hresult
  | cons m' before =>
    rw [cons_append, List.cons.injEq] at heq
    obtain ⟨rfl, rfl⟩ := heq
    have hmem : r.toolCallId ∈ calls.map ToolCall.id := by
      rw [← hids]
      exact mem_map_of_mem (mem_append_right _ (.head _))
    obtain ⟨call, hcall, hid⟩ := mem_map.mp hmem
    obtain ⟨id, hsome, -⟩ := hnamed call hcall
    exact ⟨[], m, before, id, rfl, ⟨hrole, calls, hcalls, call, hcall, hsome⟩,
      hid.symm.trans hsome, fun r' hr' => htool r' (mem_append_left _ hr')⟩

theorem paired_suffix {front history : List Message}
    (h : ResultsPaired (front ++ history)) (hhead : ∀ m ∈ history.head?, m.role ≠ .tool) :
    ResultsPaired history := by
  intro before m after heq hrole
  obtain ⟨front', caller, results, id, hbefore, hissues, hid, htool⟩ :=
    h (front ++ before) m after (by rw [heq, append_assoc]) hrole
  cases before with
  | nil =>
    rw [heq] at hhead
    exact absurd hrole (hhead m rfl)
  | cons first before =>
    have hfirst : first.role ≠ .tool := hhead first (by rw [heq]; rfl)
    rcases append_eq_append_iff.mp hbefore with ⟨between, -, hrest⟩ | ⟨between, -, hrest⟩
    · exact ⟨between, caller, results, id, hrest, hissues, hid, htool⟩
    · cases between with
      | nil =>
        rw [nil_append, List.cons.injEq] at hrest
        obtain ⟨rfl, rfl⟩ := hrest
        exact ⟨[], caller, results, id, rfl, hissues, hid, htool⟩
      | cons caller' between =>
        rw [cons_append, List.cons.injEq] at hrest
        exact absurd (htool first (by rw [hrest.2]; simp)) hfirst

/-! ### The durable store -/

theorem paired_moves {p p' : Phase} {e : Event} (hheld : Held p history) (h : ResultsPaired history)
    (hmove : Moves p e p')
    (hcut : ∀ keepCount, e = .pruneMessages keepCount → CleanCut history keepCount) :
    ResultsPaired (storedAfter history e) := by
  have hsay : ∀ batch : List Message, (∀ m ∈ batch, m.role ≠ .tool) →
      ResultsPaired (history ++ storedMessages .sqlite batch) := by
    intro batch hbatch
    refine paired_append h (paired_of_no_results fun m hm => ?_)
    obtain ⟨m', hm', rfl⟩ := mem_map.mp hm
    exact hbatch m' hm'
  cases hmove with
  | reply messages hnamed => exact h
  | failed messages error => exact h
  | compress messages result => exact h
  | save userId tenantId => exact h
  | retry ids todo call => exact h
  | handle hid => exact h
  | prune hresting keepCount =>
    have hclean := hcut keepCount rfl
    rw [← take_append_drop (history.length - keepCount) history] at h
    exact paired_suffix h hclean
  | say hresting hplain userId tenantId => exact hsay _ fun m hm => (hplain m hm).2
  | @call front m calls hfront hrole hcalls hsome hnamed userId tenantId =>
    refine hsay _ fun m' hm' => ?_
    rcases mem_append.mp hm' with hm' | hm'
    · exact (hfront m' hm').2
    · rw [mem_singleton.mp hm', hrole]
      nofun
  | @answer ids todo results hresults hids userId tenantId =>
    obtain ⟨before, m, calls, rfl, -, hrole, hcalls, -, hnamed, rfl⟩ := hheld
    have hrow := rowIds (idsOf_ne hnamed) hids
    rw [idsOf_map hnamed] at hrow
    have htool : ∀ r ∈ results.map rowToMessage, r.role = .tool := by
      intro r hr
      obtain ⟨r', hr', rfl⟩ := mem_map.mp hr
      exact (hresults r' hr').1
    have hall := paired_append (paired_front h) (paired_exchange hrole hcalls hnamed htool hrow)
    show ResultsPaired (before ++ [m] ++ results.map rowToMessage)
    rw [append_assoc]
    exact hall

theorem paired_movesOn {p p' : Phase} {es log : List Event} (hinv : LogInv p log)
    (h : ResultsPaired (stored .sqlite log)) (hfollow : Effects.Follow MovesOn p es p')
    (hcuts : ∀ before keepCount after, es = before ++ .pruneMessages keepCount :: after →
      CleanCut (stored .sqlite (log ++ before)) keepCount) :
    ResultsPaired (stored .sqlite (log ++ es)) := by
  induction hfollow generalizing log with
  | nil => rwa [append_nil]
  | @cons p p₁ p' e es hone _ ih =>
    have hnext := logInv_movesOn hinv (.cons hone (.nil _))
    have hpaired : ResultsPaired (stored .sqlite (log ++ [e])) := by
      rw [stored_snoc]
      have hcut : ∀ keepCount, e = .pruneMessages keepCount →
          CleanCut (stored .sqlite log) keepCount := by
        rintro keepCount rfl
        have hhere := hcuts [] keepCount es rfl
        rwa [append_nil] at hhere
      rcases hone with hmove | hmove
      · exact paired_moves hinv.held h hmove hcut
      · exact paired_moves (held_crash hinv.held) h hmove hcut
    rw [← singleton_append, ← append_assoc]
    refine ih hnext hpaired fun before keepCount after heq => ?_
    rw [append_assoc]
    exact hcuts (e :: before) keepCount after (by rw [heq]; rfl)

theorem CallsSettled.answered (h : CallsSettled history) {before after : List Message} {m : Message}
    {calls : List ToolCall} (heq : history = before ++ m :: after)
    (hcalls : m.toolCalls = some calls) : AnsweredBehind calls after := by
  obtain ⟨-, results, rest, hafter, hids, htool⟩ := h before m after heq calls hcalls
  exact ⟨results, rest, hafter, results_of_ids hids htool⟩

/-- Only the calls of the last message can be open. -/
theorem Held.answered {p : Phase} (h : Held p history) {before after : List Message} {m : Message}
    {calls : List ToolCall} (heq : history = before ++ m :: after)
    (hcalls : m.toolCalls = some calls) : after = [] ∨ AnsweredBehind calls after := by
  cases p with
  | idle => exact .inr (CallsSettled.answered h heq hcalls)
  | replied ids => exact .inr (CallsSettled.answered h heq hcalls)
  | called ids todo =>
    obtain ⟨earlier, last, calls', hhistory, hsettled, -⟩ := h
    cases after.eq_nil_or_concat with
    | inl hnil => exact .inl hnil
    | inr hconcat =>
      obtain ⟨after', last', rfl⟩ := hconcat
      rw [hhistory, concat_eq_append, ← cons_append, ← append_assoc] at heq
      obtain ⟨hearlier, -⟩ := append_inj' heq rfl
      obtain ⟨results, rest, rfl, hresults⟩ := hsettled.answered hearlier hcalls
      refine .inr ⟨results, rest ++ [last'], ?_, hresults⟩
      rw [concat_eq_append, append_assoc]

/-! ### Well-formed histories -/

theorem wellFormed_append {history more : List Message} (h : WellFormed history)
    (hmore : WellFormed more) : WellFormed (history ++ more) := by
  refine ⟨paired_append h.paired hmore.paired, fun before m after calls heq hcalls => ?_⟩
  have hall := splits_append
    (Q := fun _ (m : Message) after => ∀ calls, m.toolCalls = some calls →
      AnsweredBehind calls after)
    (fun _ _ _ hQ => hQ)
    (fun _ _ after hQ calls hcalls => by
      obtain ⟨results, rest, rfl, hresults⟩ := hQ calls hcalls
      exact ⟨results, rest ++ more, append_assoc .., hresults⟩)
    (fun before m after heq calls hcalls => h.answered before m after calls heq hcalls)
    (fun before m after heq calls hcalls => hmore.answered before m after calls heq hcalls)
  exact hall before m after heq calls hcalls

theorem wellFormed_of_settled (hpaired : ResultsPaired history) (hsettled : CallsSettled history) :
    WellFormed history :=
  ⟨hpaired, fun _ _ _ _ heq hcalls => hsettled.answered heq hcalls⟩

theorem wellFormed_plain (h : ∀ m ∈ history, Plain m) : WellFormed history :=
  wellFormed_of_settled (paired_of_no_results fun m hm => (h m hm).2)
    (settled_of_no_calls fun m hm => (h m hm).1)

theorem wellFormed_exchange {iteration : ℕ} {response : LLMResponse} {results : List Message}
    (hnamed : ∀ call ∈ response.toolCalls, Named call)
    (h : List.Forall₂ (AnswersCall iteration) response.toolCalls results) :
    WellFormed (assistantWithToolCalls response :: results) := by
  obtain ⟨hresults, hids⟩ := answers_ids h hnamed
  rw [idsOf_map hnamed] at hids
  exact wellFormed_of_settled
    (paired_exchange rfl rfl hnamed (fun r hr => (hresults r hr).1) hids)
    (settled_exchange rfl hnamed hresults hids)

theorem wellFormed_suffix {front history : List Message} (h : WellFormed (front ++ history))
    (hhead : ∀ m ∈ history.head?, m.role ≠ .tool) : WellFormed history := by
  refine ⟨paired_suffix h.paired hhead, fun before m after calls heq hcalls => ?_⟩
  exact h.answered (front ++ before) m after calls (by rw [heq, append_assoc]) hcalls

/-! ### The store that is written at the end -/

/-- What is assumed of an event. -/
def ShapedFits (e : Event) : Prop :=
  Fits e ∧ ∀ messages result, e = .compress messages result →
    WellFormed (nonSystem messages) → WellFormed (nonSystem result)

/-- The protocol of a turn that is written at its end; the state says
whether it is. -/
inductive WritesAtEnd : Bool → Event → Bool → Prop where
  | quiet (written : Bool) {e : Event}
      (h : ∀ session, (applyEvent .memory session e).messages = session.messages) :
      WritesAtEnd written e written
  | write {messages : List Message} (h : WellFormed messages) :
      WritesAtEnd false (.appendMessages messages) true
  | prune (written : Bool) (keepCount : ℕ) :
      WritesAtEnd written (.pruneMessages keepCount) written

/-- The state of a loop whose messages are well formed. -/
structure Shaped (st : LoopState) : Prop where
  headed : ∃ m rest, st.messages = m :: rest ∧ m.role = .system
  formed : WellFormed (nonSystem st.messages)

/-- The messages with which a loop ends. -/
def EndsShaped (ended : LoopResult × Persisted) : Prop :=
  ended.1.status ≠ .error → WellFormed (nonSystem ended.1.messages)

def PassShaped : ReactLoop.Pass → Bool → Prop
  | .inl st, written => written = false ∧ Shaped st
  | .inr ended, written => written = false ∧ EndsShaped ended

theorem Shaped.counted {st st' : LoopState} (h : Shaped st) (hcounted : Counted st st') :
    Shaped st' := by
  obtain ⟨warnings, hmessages, hwarnings⟩ := hcounted.messages
  obtain ⟨m, rest, hheaded, hsystem⟩ := h.headed
  refine ⟨⟨m, rest ++ warnings, ?_, hsystem⟩, ?_⟩
  · rw [hmessages, hheaded]
    rfl
  · rw [hmessages, nonSystem_append, hwarnings, append_nil]
    exact h.formed

theorem shaped_text {st : LoopState} (h : Shaped st) {text : List Message}
    (hplain : ∀ m ∈ text, Plain m) : WellFormed (nonSystem (st.messages ++ text)) := by
  rw [nonSystem_append]
  refine wellFormed_append h.formed (wellFormed_plain fun m hm => ?_)
  exact hplain m (mem_of_mem_filter hm)

section

variable {opts : ReactLoopOptions} {st : LoopState}

theorem compressContext_shaped (iteration : ℕ) (h : Shaped st) :
    Effects.Keeps ShapedFits WritesAtEnd false (compressContext opts iteration st)
      fun st' written => written = false ∧ Shaped st' := by
  unfold compressContext
  split
  · exact .ret ⟨rfl, h⟩
  · split
    · refine (Effects.Keeps.ofExcept fun _ _ => rfl :
        Effects.Keeps ShapedFits WritesAtEnd false _ fun _ written => written = false).bind ?_
      rintro compressed written rfl
      refine (Effects.Keeps.perform fun hfits => ⟨_, .quiet false fun _ => rfl, rfl, hfits⟩ :
        Effects.Keeps ShapedFits WritesAtEnd false _ fun _ written => written = false ∧
          ShapedFits (.compress (st.messages.drop 1) compressed)).bind ?_
      rintro - written ⟨rfl, -, hshape⟩
      split
      · exact .throw _
      · obtain ⟨m, rest, hmessages, hsystem⟩ := h.headed
        have hgiven : nonSystem (st.messages.drop 1) = nonSystem st.messages := by
          rw [hmessages]
          simp [nonSystem, hsystem]
        have hcompressed : nonSystem (st.messages.take 1 ++ compressed) = nonSystem compressed := by
          rw [nonSystem_append, hmessages]
          simp [nonSystem, hsystem]
        refine .ret ⟨rfl, ⟨m, compressed, by rw [hmessages]; rfl, hsystem⟩, ?_⟩
        show WellFormed (nonSystem (st.messages.take 1 ++ compressed))
        rw [hcompressed]
        exact hshape _ _ rfl (hgiven ▸ h.formed)
    · exact .ret ⟨rfl, h⟩

theorem toolStep_shaped (hpersist : opts.persistStep = none) (iteration : ℕ) (h : Shaped st)
    {response : LLMResponse} (hnamed : ∀ call ∈ response.toolCalls, Named call) :
    Effects.Guided WritesAtEnd false (toolStep opts iteration st response)
      PassShaped := by
  have hplain : ∀ persisted newMessages,
      persist opts persisted newMessages = .ret persisted := by
    intro persisted newMessages
    unfold persist
    rw [hpersist]
  have hquiet : Effects.Only (fun e => WritesAtEnd false e false)
      (runTools opts iteration response) := by
    intro e he
    have hhandler := runTools_only opts iteration response e he
    cases e with
    | handler call safe => exact .quiet false fun _ => rfl
    | _ => exact hhandler.elim
  unfold toolStep
  dsimp only
  rw [hplain, Effects.bind_ret]
  refine (Effects.Guided.still hquiet).and_result.bind ?_
  rintro results written ⟨rfl, hresults⟩
  have hstay : (if (results.map ToolCallResult.message).isEmpty then Effects.ret st.persisted
      else persist opts st.persisted (results.map ToolCallResult.message)) =
        Effects.ret st.persisted := by
    rw [hplain, ite_self]
  rw [hstay, Effects.bind_ret]
  have hanswers := runTools_messages hresults
  have hformed : WellFormed (nonSystem (st.messages ++
      assistantWithToolCalls response :: results.map ToolCallResult.message)) := by
    have hsaid : nonSystem (assistantWithToolCalls response ::
        results.map ToolCallResult.message) = assistantWithToolCalls response ::
          results.map ToolCallResult.message := by
      rw [← singleton_append, nonSystem_append, nonSystem_of_answers hanswers]
      rfl
    rw [nonSystem_append, hsaid]
    exact wellFormed_append h.formed (wellFormed_exchange hnamed hanswers)
  refine .ret ?_
  generalize (if results.any ToolCallResult.success then 0
    else st.consecutiveNoProgress + 1) = noProgress
  cases isStuck opts noProgress with
  | true => exact ⟨rfl, fun _ => hformed⟩
  | false =>
    obtain ⟨m, rest, hmessages, hsystem⟩ := h.headed
    exact ⟨rfl, ⟨m, _, by simp only [hmessages, cons_append]; rfl, hsystem⟩, hformed⟩

theorem respond_shaped (hpersist : opts.persistStep = none) (iteration : ℕ) (h : Shaped st)
    {response : LLMResponse} (hnamed : ∀ call ∈ response.toolCalls, Named call) :
    Effects.Keeps ShapedFits WritesAtEnd false (respond opts iteration st response)
      PassShaped := by
  have hcounted := trackUsage_counted opts st response
  unfold respond
  rcases htrack : trackUsage opts st response with ⟨st', status | status⟩
  · rw [htrack] at hcounted
    have hshaped := h.counted hcounted
    dsimp only
    split
    · refine .ret ⟨rfl, fun _ => shaped_text hshaped fun m hm => ?_⟩
      rw [mem_singleton.mp hm]
      exact plain_assistant _
    · exact (toolStep_shaped hpersist iteration hshaped hnamed).keeps
  · rw [htrack] at hcounted
    exact .ret ⟨rfl, fun _ => shaped_text (h.counted hcounted) (stopText_plain response)⟩

theorem iterate_shaped (hpersist : opts.persistStep = none) (iteration : ℕ) (h : Shaped st) :
    Effects.Keeps ShapedFits WritesAtEnd false (iterate opts iteration st)
      PassShaped := by
  unfold ReactLoop.iterate
  refine (compressContext_shaped iteration h).bind ?_
  rintro st' written ⟨rfl, hshaped⟩
  refine (Effects.Keeps.perform fun hfits => ⟨_, .quiet false fun _ => rfl, rfl, hfits.1⟩ :
    Effects.Keeps ShapedFits WritesAtEnd false _ fun _ written => written = false ∧
      Fits (.chat st'.messages (opts.llm iteration st'.messages))).bind ?_
  rintro - written ⟨rfl, hfits⟩
  cases hreply : opts.llm iteration st'.messages with
  | error error => exact .ret ⟨rfl, fun herror => absurd rfl herror⟩
  | ok response =>
    rw [hreply] at hfits
    exact respond_shaped hpersist iteration hshaped hfits

theorem loop_shaped (hpersist : opts.persistStep = none) (left iteration : ℕ) (h : Shaped st) :
    Effects.Keeps ShapedFits WritesAtEnd false (loop opts left iteration st)
      fun ended written => written = false ∧ EndsShaped ended := by
  induction left generalizing iteration st with
  | zero => exact .ret ⟨rfl, fun _ => h.formed⟩
  | succ left ih =>
    refine (iterate_shaped hpersist (iteration + 1) h).bind ?_
    rintro (st' | ended) written hpass
    · obtain ⟨rfl, hshaped⟩ := hpass
      exact ih (iteration + 1) hshaped
    · exact .ret hpass

end

section

variable (json : Json) (agent : AgentDefinition) (opts : RunOptions)

/-- A turn that is written at its end. -/
theorem runLoop_shaped (hstore : opts.store = .memory) :
    Effects.Keeps ShapedFits WritesAtEnd false (runLoop json agent opts none)
      fun _ _ => True := by
  have hpersist : (loopOptions json agent opts none).persistStep = none := by
    unfold loopOptions durable
    rw [hstore]
    rfl
  have hnotDurable : durable opts = false := by
    unfold durable
    rw [hstore]
    rfl
  have hstart : Shaped (initialState (loopOptions json agent opts none)) := by
    refine ⟨⟨_, _, rfl, rfl⟩, wellFormed_plain fun m hm => ?_⟩
    have huser : m ∈ [Message.plain .user opts.message] := hm
    rw [mem_singleton.mp huser]
    exact plain_user _
  refine (loop_shaped hpersist agent.maxIterations 0 hstart).bind ?_
  rintro ⟨result, persisted⟩ written ⟨rfl, hshaped⟩
  refine (Effects.Keeps.ofExcept fun _ _ => rfl :
    Effects.Keeps ShapedFits WritesAtEnd false _ fun _ written => written = false).bind ?_
  rintro - written rfl
  refine (Effects.Keeps.ofExcept fun _ _ => rfl :
    Effects.Keeps ShapedFits WritesAtEnd false _ fun _ written => written = false).bind ?_
  rintro valid written rfl
  split
  · split
    · exact .ret trivial
    · next herror =>
        have hformed := hshaped fun hstatus => herror (beq_iff_eq.mpr hstatus)
        rw [if_neg (by rw [hnotDurable]; exact Bool.false_ne_true)]
        refine Effects.Keeps.bind (Q := fun _ _ => True) ?_ fun _ _ _ => .ret trivial
        unfold persistAtEnd
        refine (Effects.Keeps.perform fun _ => ⟨_, .quiet false fun _ => rfl, rfl⟩ :
          Effects.Keeps ShapedFits WritesAtEnd false
            (Effects.perform (.saveSession opts.userId opts.tenantId))
              fun _ written => written = false).bind ?_
        rintro - written rfl
        refine Effects.Keeps.bind (Q := fun _ _ => True) ?_ fun _ written _ => ?_
        · split
          · exact .ret trivial
          · exact .perform fun _ => ⟨_, .write hformed, trivial⟩
        · unfold pruneStored
          split
          · exact .ret trivial
          · exact .perform fun _ => ⟨_, .prune written _, trivial⟩
  · exact .ret trivial

theorem run_shaped (hstore : opts.store = .memory) (hnew : opts.sessionId = none)
    (session : StoredSession) :
    Effects.Keeps ShapedFits WritesAtEnd false (run json agent opts session)
      fun _ _ => True := by
  unfold run loadPrevious
  rw [hnew]
  dsimp only
  rw [Effects.bind_ret]
  refine (Effects.Keeps.ofExcept fun _ _ => rfl :
    Effects.Keeps ShapedFits WritesAtEnd false _ fun _ written => written = false).bind ?_
  rintro - written rfl
  exact runLoop_shaped json agent opts hstore

theorem run_memory_resumed (hstore : opts.store = .memory) {sessionId : String}
    (hid : opts.sessionId = some sessionId) (session : StoredSession) :
    (run json agent opts session).events = [] := by
  unfold run loadPrevious
  rw [hid, hstore]
  rfl

end

/-- What the memory store holds along a turn. -/
theorem memory_follows {written written' : Bool} {es log : List Event}
    (hfollow : Effects.Follow WritesAtEnd written es written')
    (hempty : written = false → stored .memory log = [])
    (hformed : WellFormed (stored .memory log))
    (hcuts : ∀ before keepCount after, es = before ++ .pruneMessages keepCount :: after →
      CleanCut (stored .memory (log ++ before)) keepCount) :
    WellFormed (stored .memory (log ++ es)) := by
  induction hfollow generalizing log with
  | nil => rwa [append_nil]
  | @cons written written₁ written' e es hone _ ih =>
    have hafter : stored .memory (log ++ [e]) =
        (applyEvent .memory (applyEvents .memory .empty log) e).messages := by
      unfold stored
      rw [applyEvents_append]
      rfl
    have hnext : (written₁ = false → stored .memory (log ++ [e]) = []) ∧
        WellFormed (stored .memory (log ++ [e])) := by
      rw [hafter]
      cases hone with
      | quiet _ hquiet =>
        rw [hquiet]
        exact ⟨hempty, hformed⟩
      | write hmessages =>
        refine ⟨nofun, ?_⟩
        show WellFormed (stored .memory log ++ _)
        rw [hempty rfl]
        exact hmessages
      | prune _ keepCount =>
        have hclean := hcuts [] keepCount es rfl
        rw [append_nil] at hclean
        refine ⟨fun hnone => ?_, ?_⟩
        · show prune keepCount (stored .memory log) = []
          rw [hempty hnone]
          exact drop_nil
        · have hall := hformed
          rw [← take_append_drop ((stored .memory log).length - keepCount)
            (stored .memory log)] at hall
          exact wellFormed_suffix hall hclean
    rw [← singleton_append, ← append_assoc]
    refine ih hnext.1 hnext.2 fun before keepCount after heq => ?_
    rw [append_assoc]
    exact hcuts (e :: before) keepCount after (by rw [heq]; rfl)

theorem wellFormed_nil : WellFormed [] := wellFormed_plain fun _ hm => nomatch hm

theorem memory_session {json : Json} {sessionId : String} {turns : List Turn}
    (h : Tidy .memory (sessionLog json .memory sessionId turns)) :
    WellFormed (stored .memory (sessionLog json .memory sessionId turns)) := by
  induction turns with
  | nil => exact wellFormed_nil
  | cons turn earlier ih =>
    cases earlier with
    | nil =>
      have hlog : sessionLog json .memory sessionId [turn] =
          (runTurn json .memory none .empty turn).events.take turn.cut := rfl
      rw [hlog] at h ⊢
      obtain ⟨t, hfollow, -⟩ := run_shaped json turn.agent (inSession turn.opts .memory none)
        rfl rfl .empty
      obtain ⟨t', htaken⟩ := hfollow.take turn.cut
      obtain ⟨written, -, hwrites⟩ := htaken.of_fits fun e he =>
        ⟨h.fits e he, fun messages result heq => h.shaped messages result (heq ▸ he)⟩
      exact @memory_follows false written _ [] hwrites (fun _ => rfl) wellFormed_nil h.cuts
    | cons turn' earlier =>
      have hlog : sessionLog json .memory sessionId (turn :: turn' :: earlier) =
          sessionLog json .memory sessionId (turn' :: earlier) := by
        have hnone := run_memory_resumed json turn.agent
          (inSession turn.opts .memory (some sessionId)) rfl rfl
        show _ ++ (run json turn.agent (inSession turn.opts .memory (some sessionId))
          _).events.take _ = _
        rw [hnone, take_nil, append_nil]
      rw [hlog] at h ⊢
      exact ih h

/-! ### The theorem -/

theorem durable_session {json : Json} {sessionId : String} {turns : List Turn}
    (h : Tidy .sqlite (sessionLog json .sqlite sessionId turns)) :
    WellFormedSoFar (stored .sqlite (sessionLog json .sqlite sessionId turns)) ∧
      (LastReturned json .sqlite sessionId turns →
        WellFormed (stored .sqlite (sessionLog json .sqlite sessionId turns))) := by
  obtain ⟨p, hfollow⟩ := session_follows h.fits
  have hinv := logInv_movesOn logInv_nil hfollow
  have hpaired := paired_movesOn logInv_nil wellFormed_nil.paired hfollow h.cuts
  rw [nil_append] at hinv hpaired
  refine ⟨⟨hpaired, fun before m after calls => hinv.held.answered⟩, fun hreturned => ?_⟩
  refine wellFormed_of_settled hpaired ?_
  cases turns with
  | nil => exact callsSettled_nil
  | cons turn earlier =>
    obtain ⟨hwhole, result, hok⟩ := hreturned
    obtain ⟨p₁, hearlier⟩ := session_follows fun e he => h.fits e (mem_append_left _ he)
    obtain ⟨p₂, hmoves, hresting⟩ := turn_follows hearlier h.fits
    have hlast := logInv_movesOn (logInv_crash (logInv_movesOn logInv_nil hearlier))
      (movesOn_of_moves hmoves)
    exact hlast.held.settled (hresting hwhole result hok)

/-- A tidy session stores a well-formed history. The calls of the last
message may be open, when the last turn is broken off. -/
theorem stored_well_formed (json : Json) (store : StoreKind) (sessionId : String)
    (turns : List Turn) (h : Tidy store (sessionLog json store sessionId turns)) :
    WellFormedSoFar (stored store (sessionLog json store sessionId turns)) ∧
      (LastReturned json store sessionId turns →
        WellFormed (stored store (sessionLog json store sessionId turns))) := by
  cases store with
  | memory =>
    have hformed := memory_session h
    exact ⟨⟨hformed.paired, fun before m after calls heq hcalls =>
      .inr (hformed.answered before m after calls heq hcalls)⟩, fun _ => hformed⟩
  | sqlite => exact durable_session h

/-- Neither a compression nor a pruning. -/
def undisturbed : Event → Bool
  | .compress _ _ => false
  | .pruneMessages _ => false
  | _ => true

theorem tidy_of_undisturbed {store : StoreKind} {log : List Event} (hfits : ∀ e ∈ log, Fits e)
    (h : ∀ e ∈ log, undisturbed e = true) : Tidy store log := by
  refine ⟨hfits, fun messages result hmem => ?_, fun before keepCount after heq => ?_⟩
  · exact absurd (h _ hmem) Bool.false_ne_true
  · have hmem : Event.pruneMessages keepCount ∈ log := by
      rw [heq]
      exact mem_append_right _ (.head _)
    exact absurd (h _ hmem) Bool.false_ne_true

/-- The session is tidy, and its last turn returns. -/
theorem stored_well_formed_behind_handler :
    Tidy .sqlite (sessionLog sameText .sqlite "s1" [resumed, brokenOff]) ∧
      WellFormed (stored .sqlite (sessionLog sameText .sqlite "s1" [resumed, brokenOff])) := by
  have htidy : Tidy .sqlite (sessionLog sameText .sqlite "s1" [resumed, brokenOff]) :=
    tidy_of_undisturbed (by decide) (by decide)
  exact ⟨htidy, (stored_well_formed sameText .sqlite "s1" [resumed, brokenOff] htidy).2
    ⟨by decide, _, rfl⟩⟩

/-- The turn is broken off between its two writes: the stored call waits
for its result. -/
theorem call_left_open :
    ¬ WellFormed (stored .sqlite (sessionLog sameText .sqlite "s1" [brokenOff])) := by
  intro h
  obtain ⟨results, rest, hafter, hresults⟩ :=
    h.answered [.plain .user "look around"] _ [] _ rfl rfl
  cases hresults with
  | cons _ _ => cases hafter

end Vertz.Proofs
