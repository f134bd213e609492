import Vertz.Proofs.TurnLoop

/-!
# `Vertz.Proofs.TurnMessages`: when a turn is stored as it was said
-/

namespace Vertz.Proofs

open Vertz.Lib
open Vertz.Agents
open Vertz.Spec.AgentTurn List ReactLoop

/-! ### Slices -/

theorem drop_append_eq_iff {α : Type} {front heard : List α} (hheard : heard ≠ []) (n : ℕ)
    (behind : List α) : (front ++ behind).drop n = heard ++ behind ↔ front.drop n = heard := by
  rw [drop_append]
  constructor
  · intro h
    have hlength := congrArg List.length h
    rw [length_append, length_append, length_drop, length_drop] at hlength
    have hpos := length_pos_iff.mpr hheard
    have hwithin : n - front.length = 0 := by omega
    rw [hwithin, drop_zero] at h
    exact append_cancel_right h
  · intro h
    have hlength := congrArg List.length h
    rw [length_drop] at hlength
    have hpos := length_pos_iff.mpr hheard
    have hwithin : n - front.length = 0 := by omega
    rw [h, hwithin, drop_zero]

/-! ### Stores -/

/-- An event of the loop, that writes only where it is durable. -/
def InLoop (durable : Bool) : Event → Prop
  | .chat _ _ => True
  | .compress _ _ => True
  | .handler _ _ => True
  | .appendMessagesAtomic _ _ _ => durable = true
  | .saveSession _ _ => False
  | .appendMessages _ => False
  | .pruneMessages _ => False

theorem storedMessages_append (kind : StoreKind) (ms ms' : List Message) :
    storedMessages kind (ms ++ ms') = storedMessages kind ms ++ storedMessages kind ms' := by
  cases kind with
  | memory => rfl
  | sqlite => exact map_append

theorem length_storedMessages (kind : StoreKind) (ms : List Message) :
    (storedMessages kind ms).length = ms.length := by
  cases kind with
  | memory => rfl
  | sqlite => exact length_map _

/-- What the loop has written is what the store holds more. -/
theorem applyEvents_observe (opts : ReactLoopOptions) {durable : Bool} {events : List Event}
    (hevents : ∀ e ∈ events, InLoop durable e) (kind : StoreKind) (session : StoredSession)
    (o : Observed) : ∃ written, (events.foldl (observe opts) o).written = o.written ++ written ∧
      (applyEvents kind session events).messages =
        session.messages ++ storedMessages kind written ∧
      (durable = false → written = []) := by
  induction events generalizing session o with
  | nil =>
    refine ⟨[], (append_nil _).symm, ?_, fun _ => rfl⟩
    cases kind <;> exact (append_nil _).symm
  | cons e events ih =>
    have hrest := ih (fun e he => hevents e (.tail _ he)) (applyEvent kind session e)
      (observe opts o e)
    obtain ⟨written, hwritten, hmessages, hquiet⟩ := hrest
    have hone := hevents e (.head _)
    cases e with
    | chat messages reply => exact ⟨written, hwritten, hmessages, hquiet⟩
    | compress messages result => exact ⟨written, hwritten, hmessages, hquiet⟩
    | handler call safe => exact ⟨written, hwritten, hmessages, hquiet⟩
    | appendMessagesAtomic messages userId tenantId =>
      refine ⟨messages ++ written, ?_, ?_, fun h => ?_⟩
      · exact hwritten.trans (append_assoc ..)
      · rw [storedMessages_append, ← append_assoc]
        exact hmessages
      · rw [hone] at h
        cases h
    | saveSession userId tenantId => exact hone.elim
    | appendMessages messages => exact hone.elim
    | pruneMessages keepCount => exact hone.elim

theorem inLoop_of_handler {durable : Bool} {e : Event} (h : IsHandler e) : InLoop durable e := by
  cases e with
  | handler call safe => trivial
  | _ => exact h.elim

theorem iterate_only {opts : ReactLoopOptions} {durable : Bool}
    (hpersist : ∀ persisted newMessages,
      Effects.Only (InLoop durable) (persist opts persisted newMessages))
    (iteration : ℕ) (st : LoopState) :
    Effects.Only (InLoop durable) (iterate opts iteration st) := by
  have htoolStep : ∀ st response,
      Effects.Only (InLoop durable) (toolStep opts iteration st response) := by
    intro st response
    refine (hpersist _ _).bind fun persisted => Effects.Only.bind ?_ fun results => ?_
    · intro e he
      exact inLoop_of_handler (runTools_only opts iteration response e he)
    · refine Effects.Only.bind ?_ fun _ => .ret _
      split
      · exact .ret _
      · exact hpersist _ _
  have hcompress : Effects.Only (InLoop durable) (compressContext opts iteration st) := by
    unfold compressContext
    split
    · exact .ret _
    · split
      · refine (Effects.Only.ofExcept _).bind fun compressed =>
          (Effects.Only.perform trivial).bind fun _ => ?_
        split
        · exact .throw _
        · exact .ret _
      · exact .ret _
  refine hcompress.bind fun st => (Effects.Only.perform trivial).bind fun _ => ?_
  split
  · exact .ret _
  · unfold respond
    split
    · exact .ret _
    · split
      · exact .ret _
      · exact htoolStep _ _

theorem reactLoop_only {opts : ReactLoopOptions} {durable : Bool}
    (hpersist : ∀ persisted newMessages,
      Effects.Only (InLoop durable) (persist opts persisted newMessages)) :
    Effects.Only (InLoop durable) (reactLoop opts) := by
  have hloop : ∀ left iteration st,
      Effects.Only (InLoop durable) (loop opts left iteration st) := by
    intro left
    induction left with
    | zero => exact fun _ _ => .ret _
    | succ left ih =>
      intro iteration st
      refine (iterate_only hpersist (iteration + 1) st).bind fun pass => ?_
      split
      · exact ih _ _
      · exact .ret _
  exact hloop _ _ _

/-! ### A turn -/

section

variable {json : Json} {agent : AgentDefinition} {opts : RunOptions}
  {previousMessages : Option (List Message)} {result : LoopResult}

/-- A turn that succeeds is the loop and what is written at its end. -/
theorem runLoop_ok
    (h : (runLoop json agent opts previousMessages).result = .ok result)
    (hstatus : result.status ≠ .error) :
    ∃ persisted,
      (reactLoop (loopOptions json agent opts previousMessages)).result = .ok (result, persisted) ∧
        (runLoop json agent opts previousMessages).events =
          (reactLoop (loopOptions json agent opts previousMessages)).events ++
            (if durable opts then persistDurable opts previousMessages result persisted
              else persistAtEnd opts previousMessages result).events := by
  obtain ⟨⟨loopResult, persisted⟩, hloop, hrest, hevents⟩ := Effects.bind_ok h
  change (runLoop json agent opts previousMessages).events = _ at hevents
  dsimp only at hrest hevents
  obtain ⟨_, hhook, -, -⟩ := Effects.bind_ok hrest
  rw [Effects.ofExcept_result] at hhook
  rw [Effects.ofExcept_ok_bind hhook] at hrest hevents
  obtain ⟨valid, hvalid, -, -⟩ := Effects.bind_ok hrest
  rw [Effects.ofExcept_result] at hvalid
  rw [Effects.ofExcept_ok_bind hvalid] at hrest hevents
  cases valid with
  | false =>
    cases hrest
    exact absurd rfl hstatus
  | true =>
    by_cases herror : (loopResult.status == .error) = true
    · simp only [if_true, herror] at hrest
      cases hrest
      exact absurd (beq_iff_eq.mp herror) hstatus
    · simp only [if_true, herror, Bool.false_eq_true, if_false] at hrest hevents
      obtain ⟨-, -, hret, hwrites⟩ := Effects.bind_ok hrest
      cases hret
      refine ⟨persisted, hloop, hevents.trans ?_⟩
      exact congrArg _ (hwrites.trans (append_nil _))

theorem persistDurable_ok (persisted : Persisted) :
    (persistDurable (durably opts) previousMessages result persisted).result = .ok () := by
  unfold persistDurable
  simp only [Effects.bind_result]
  split <;> rfl

theorem persistAtEnd_ok :
    (persistAtEnd (atTheEnd opts) previousMessages result).result = .ok () := by
  unfold persistAtEnd
  simp only [Effects.bind_result]
  split <;> rfl

theorem durable_loopOptions :
    Durable (loopOptions json agent (durably opts) previousMessages) (durably opts) := ⟨rfl, rfl⟩

/-- Both paths come to the same. -/
theorem runLoop_atTheEnd :
    (runLoop json agent (atTheEnd opts) previousMessages).result =
      (runLoop json agent (durably opts) previousMessages).result := by
  have hloop : (reactLoop (loopOptions json agent (atTheEnd opts) previousMessages)).result =
      (reactLoop (loopOptions json agent (durably opts) previousMessages)).result.map
        forgetEnd := reactLoop_detached durable_loopOptions
  unfold runLoop
  rw [Effects.bind_result, Effects.bind_result, hloop]
  rcases (reactLoop (loopOptions json agent (durably opts) previousMessages)).result with
    error | ⟨result, persisted⟩
  · rfl
  · refine Effects.bind_result_congr (Effects.ofExcept (endHook agent result.status)) fun _ =>
      Effects.bind_result_congr (Effects.ofExcept (outputValid json agent result)) fun valid => ?_
    cases valid with
    | false => rfl
    | true =>
      by_cases herror : (result.status == .error) = true
      · simp only [if_true, herror]
      · simp only [if_true, herror, Bool.false_eq_true, if_false]
        rw [Effects.bind_result, Effects.bind_result]
        show Except.bind (persistAtEnd _ _ _).result _ =
          Except.bind (persistDurable _ _ _ _).result _
        rw [persistAtEnd_ok, persistDurable_ok]

/-! ### What is stored of a turn -/

theorem loop_only_durable : Effects.Only (InLoop true)
    (reactLoop (loopOptions json agent (durably opts) previousMessages)) :=
  reactLoop_only fun _ _ =>
    (show Effects.Only (InLoop true) (Effects.perform (.appendMessagesAtomic _ _ _)) from
      .perform rfl).bind fun _ => .ret _

theorem loop_only_atTheEnd : Effects.Only (InLoop false)
    (reactLoop (loopOptions json agent (atTheEnd opts) previousMessages)) :=
  reactLoop_only fun _ _ => .ret _

theorem applyEvents_append (kind : StoreKind) (session : StoredSession) (es fs : List Event) :
    applyEvents kind session (es ++ fs) =
      applyEvents kind (applyEvents kind session es) fs := foldl_append ..

theorem persistDurable_stored (kind : StoreKind) (session : StoredSession)
    (persisted : Persisted) :
    (applyEvents kind session
        (persistDurable (durably opts) previousMessages result persisted).events).messages =
      session.messages ++
        storedMessages kind (unpersistedTail previousMessages result persisted) := by
  unfold persistDurable
  dsimp only
  generalize unpersistedTail previousMessages result persisted = tail
  cases tail with
  | nil => cases kind <;> exact (append_nil _).symm
  | cons m tail => rfl

theorem persistAtEnd_stored (opts : RunOptions) (previousMessages : Option (List Message))
    (result : LoopResult) (kind : StoreKind) (session : StoredSession) :
    (applyEvents kind session
        (persistAtEnd (atTheEnd opts) previousMessages result).events).messages =
      session.messages ++ storedMessages kind (messagesToPersist previousMessages result) := by
  unfold persistAtEnd
  dsimp only
  generalize messagesToPersist previousMessages result = messages
  cases messages with
  | nil => cases kind <;> exact (append_nil _).symm
  | cons m messages => rfl

theorem messagesToPersist_eq (previousMessages : Option (List Message)) (result : LoopResult) :
    messagesToPersist previousMessages result =
      (nonSystem result.messages).drop (previousMessages.getD []).length := by
  cases previousMessages <;> rfl

/-- The end of a turn is not heard. -/
theorem observed_runLoop {persisted : Persisted}
    (hevents : (runLoop json agent (durably opts) previousMessages).events =
      (reactLoop (loopOptions json agent (durably opts) previousMessages)).events ++
        (persistDurable (durably opts) previousMessages result persisted).events) :
    let loop := loopOptions json agent (durably opts) previousMessages
    let o := observed loop (runLoop json agent (durably opts) previousMessages).events
    let o' := observed loop (reactLoop loop).events
    o.replies = o'.replies ∧ o.base = o'.base ∧ o.heard = o'.heard := by
  intro loop o o'
  have hobserved : o = (persistDurable (durably opts) previousMessages result persisted).events.foldl
      (observe loop) o' := by
    show observed loop (runLoop json agent (durably opts) previousMessages).events = _
    rw [hevents]
    exact foldl_append ..
  rw [hobserved]
  unfold persistDurable
  dsimp only
  split <;> exact ⟨rfl, rfl, rfl⟩

theorem runLoop_ended
    (h : (runLoop json agent (durably opts) previousMessages).result = .ok result)
    (hstatus : result.status ≠ .error) :
    let loop := loopOptions json agent (durably opts) previousMessages
    let o := observed loop (runLoop json agent (durably opts) previousMessages).events
    ∃ persisted written, Ended loop result persisted { o with written := written } ∧
      ∀ session : StoredSession,
        (applyEvents .sqlite session
            (runLoop json agent (durably opts) previousMessages).events).messages =
          session.messages ++ storedMessages .sqlite
            (written ++ unpersistedTail previousMessages result persisted) := by
  intro loop o
  obtain ⟨persisted, hloop, hevents⟩ := runLoop_ok h hstatus
  obtain ⟨hreplies, hbase, hheard⟩ := observed_runLoop hevents
  have hended := told_reactLoop durable_loopOptions hloop hstatus
  refine ⟨persisted, (observed loop (reactLoop loop).events).written, ?_, ?_⟩
  · have heq : { o with written := (observed loop (reactLoop loop).events).written } =
        observed loop (reactLoop loop).events := by
      show Observed.mk o.replies o.base o.heard _ = _
      rw [hreplies, hbase, hheard]
    rw [heq]
    exact hended
  · intro session
    obtain ⟨written, hwritten, hmessages, -⟩ :=
      applyEvents_observe loop loop_only_durable .sqlite session
        ⟨[], loop.previousMessages.getD [] ++ [.plain .user loop.userMessage], talk loop [], []⟩
    have hall : (observed loop (reactLoop loop).events).written = written := hwritten
    rw [hall, storedMessages_append, ← append_assoc, ← hmessages, hevents,
      applyEvents_append]
    exact persistDurable_stored .sqlite _ persisted

theorem atTheEnd_stored
    (h : (runLoop json agent (atTheEnd opts) previousMessages).result = .ok result)
    (hstatus : result.status ≠ .error) (session : StoredSession) :
    (applyEvents .memory session
        (runLoop json agent (atTheEnd opts) previousMessages).events).messages =
      session.messages ++
        (nonSystem result.messages).drop (previousMessages.getD []).length := by
  obtain ⟨persisted, -, hevents⟩ := runLoop_ok h hstatus
  let loop := loopOptions json agent (atTheEnd opts) previousMessages
  obtain ⟨written, -, hmessages, hnone⟩ :=
    applyEvents_observe loop loop_only_atTheEnd .memory session ⟨[], [], [], []⟩
  rw [hnone rfl] at hmessages
  rw [hevents, applyEvents_append]
  have hend := persistAtEnd_stored opts previousMessages result .memory
    (applyEvents .memory session (reactLoop loop).events)
  rw [hmessages, messagesToPersist_eq] at hend
  exact hend.trans (congrArg (· ++ _) (append_nil _))

theorem said_eq_iff {loop : ReactLoopOptions} {persisted : Persisted} {o : Observed}
    (h : Ended loop result persisted o) (n : ℕ) :
    (nonSystem result.messages).drop n = said loop o.replies ↔
      (nonSystem o.base).drop n = o.heard := by
  obtain ⟨since, hmessages, htalk⟩ := h.kept
  unfold said
  rw [hmessages, htalk, append_assoc, append_assoc]
  exact drop_append_eq_iff h.heard n _

/-- The tail is what was said last, where nothing is said after a tool. -/
theorem stored_eq_iff {loop : ReactLoopOptions} {persisted : Persisted} {o : Observed}
    (h : Ended loop result persisted o)
    (haligned : (nonSystem result.messages).drop (previousMessages.getD []).length =
      said loop o.replies) :
    storedMessages .sqlite (o.written ++ unpersistedTail previousMessages result persisted) =
        storedMessages .sqlite (said loop o.replies) ↔
      exchanged loop o.replies = [] ∨ closing loop o.replies = [] := by
  have hnoted := h.noted
  unfold unpersistedTail
  rw [haligned]
  unfold Noted at hnoted
  split at hnoted
  · next hnone =>
      rw [hnoted.1, hnoted.2]
      exact iff_of_true rfl (.inl hnone)
  · next hsome =>
      rw [hnoted.1, hnoted.2, or_iff_right hsome]
      have htail : ((said loop o.replies).drop
          ((talk loop (exchanged loop o.replies)).length + 1)) =
            (closing loop o.replies).drop 1 :=
        drop_length_add_append ..
      simp only [if_true]
      rw [htail]
      constructor
      · intro heq
        have hlength := congrArg List.length heq
        rw [length_storedMessages, length_storedMessages] at hlength
        unfold said at hlength
        rw [length_append, length_append, length_drop] at hlength
        exact eq_nil_of_length_eq_zero (by omega)
      · intro hnil
        unfold said
        rw [hnil]
        rfl

/-! ### The equivalence -/

theorem run_history (session : StoredSession) :
    run json agent (durably opts) session =
      (history json agent opts session).bind (runLoop json agent (durably opts)) := by
  unfold run history
  rw [Effects.bind_assoc]
  refine congrArg _ (funext fun _ => ?_)
  rw [Effects.bind_assoc]

theorem run_ok {session : StoredSession}
    (hhistory : (history json agent opts session).result = .ok previousMessages)
    (hrun : (runLoop json agent (durably opts) previousMessages).result = .ok result) :
    (run json agent (durably opts) session).result = .ok result := by
  rw [run_history, Effects.bind_of_ok hhistory]
  exact hrun

theorem run_events {session : StoredSession}
    (hhistory : (history json agent opts session).result = .ok previousMessages) :
    (run json agent (durably opts) session).events =
      (history json agent opts session).events ++
        (runLoop json agent (durably opts) previousMessages).events := by
  rw [run_history, Effects.bind_of_ok hhistory]

/-- A turn is stored as it was said if and only if it does not say more
after its tools, and compression keeps to the history. -/
theorem stores_what_was_said_iff (json : Json) (agent : AgentDefinition) (opts : RunOptions)
    (session : StoredSession) :
    StoresWhatWasSaid json agent opts session ↔ StoredAsSaid json agent opts session := by
  constructor
  · intro h previousMessages result hhistory hrun hstatus
    obtain ⟨persisted, written, hended, hstored⟩ := runLoop_ended hrun hstatus
    have hatEnd := h.atTheEnd previousMessages result hhistory
      (runLoop_atTheEnd.trans hrun) hstatus .empty
    rw [atTheEnd_stored (runLoop_atTheEnd.trans hrun) hstatus] at hatEnd
    have haligned := append_cancel_left hatEnd
    refine ⟨?_, (said_eq_iff hended _).mp haligned⟩
    have hsaid := h.durable previousMessages result hhistory (run_ok hhistory hrun) hstatus
    rw [run_events hhistory, applyEvents_append, hstored] at hsaid
    exact (stored_eq_iff hended haligned).mp (append_cancel_left hsaid)
  · intro h
    refine ⟨fun previousMessages result hhistory hrun hstatus => ?_,
      fun previousMessages result hhistory hrun hstatus stored => ?_⟩
    · rw [run_history, Effects.bind_of_ok hhistory] at hrun
      obtain ⟨hlast, haligned⟩ := h previousMessages result hhistory hrun hstatus
      obtain ⟨persisted, written, hended, hstored⟩ := runLoop_ended hrun hstatus
      rw [run_events hhistory, applyEvents_append, hstored]
      exact congrArg _
        ((stored_eq_iff hended ((said_eq_iff hended _).mpr haligned)).mpr hlast)
    · have hrun' := runLoop_atTheEnd.symm.trans hrun
      obtain ⟨-, haligned⟩ := h previousMessages result hhistory hrun' hstatus
      obtain ⟨persisted, written, hended, -⟩ := runLoop_ended hrun' hstatus
      rw [atTheEnd_stored hrun hstatus]
      exact congrArg _ ((said_eq_iff hended _).mpr haligned)

end

/-! ### A closing text that is lost -/

/-- A model that looks once and then says that it is done. -/
def looksOnce : ℕ → List Message → Except String LLMResponse
  | 1, _ => .ok ⟨"", [⟨some "c1", "look", .null⟩], none⟩
  | _, _ => .ok ⟨"done", [], none⟩

def lookingAgent : AgentDefinition where
  name := "scout"
  system := none
  tools := ⟨[("look", ⟨.ok, .ok, some fun _ _ => .ok .null, false, true⟩)], by decide⟩
  maxIterations := 5
  stuckThreshold := none
  tokenBudget := none
  diminishingReturns := none
  maxToolConcurrency := none
  contextCompression := none
  output := none
  onStart := .ok ()
  onComplete := .ok ()
  onStuck := .ok ()

def lookingOptions : RunOptions where
  message := "look around"
  llm := looksOnce
  tools := ⟨[], by decide⟩
  userId := none
  tenantId := none
  store := .sqlite
  sessionId := none
  maxStoredMessages := none

/-- JSON is only written, and each value in the same way. -/
def sameText : Json := ⟨fun _ => none, fun _ => "null"⟩

/-- A tool is called, and the text that the model ends with is not
stored. -/
theorem closing_text_lost :
    ¬ StoresWhatWasSaid sameText lookingAgent lookingOptions .empty := by
  intro h
  have hstored := congrArg List.length (h.durable none _ rfl rfl (by decide))
  revert hstored
  decide

end Vertz.Proofs
