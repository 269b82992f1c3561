import Peen.Session.HistoryCoverage

/-!
# Completed turns

A turn that ends without completing has its messages marked incomplete.
-/

namespace Peen.Sessions

open Tables Lts
open World (new)

/-- No message of a completed turn is marked incomplete, this one set aside. -/
def CompleteBut (turnID : Option UUID) (s : Tables) : Prop :=
  ∀ t ∈ s.turns, some t.id ≠ turnID → t.state = .completed →
    ∀ m ∈ s.messages, m.turnID = t.id → m.incomplete = false

instance (turnID : Option UUID) : DecidablePred (CompleteBut turnID) := fun s =>
  inferInstanceAs (Decidable (∀ t ∈ s.turns, some t.id ≠ turnID → t.state = .completed →
    ∀ m ∈ s.messages, m.turnID = t.id → m.incomplete = false))

/-- No message of a completed turn is marked. -/
abbrev TurnsComplete : Tables → Prop := CompleteBut none

/-- A result that completes a turn finds no message of it marked incomplete, and brings none. -/
def wholeTurn (s : Tables) (turnID : UUID) (input : FinalizeTurnInput) : Bool :=
  input.state != .completed ||
    ((s.messages.all fun m => m.turnID != turnID || !m.incomplete) &&
      input.messages.all fun m => !m.incomplete)

def Tables.isCompleted (s : Tables) (turnID : UUID) : Bool :=
  s.turns.any fun t => t.id == turnID && t.state == .completed

/-- The turn is completed after the call and was not before. -/
def completesTurn (cfg : Config) (w : World) (a : Action) (turnID : UUID) : Bool :=
  !w.tables.isCompleted turnID && (act cfg w a).toOption.any (·.tables.isCompleted turnID)

/-- A step completes whole turns only. An end without a lease, which marks the messages of its turn,
completes none: the controller and the runtime name a failure or a cancellation. -/
def completesWhole (cfg : Config) (w : World) (a : Action) : Bool :=
  match a with
  | .finalizeTurn lease input _ => wholeTurn w.tables lease.turnID input
  | .endRunningTurn turnID _ _ => !completesTurn cfg w a turnID
  | .complete _ lease input _ =>
    match input.finish.bind (·.turn), w.tables.executions.activityForLease cfg.sessionID lease with
    | some turn, .ok (_, execution) =>
      !completesTurn cfg w a execution.rootTurnID || wholeTurn w.tables execution.rootTurnID turn
    | _, _ => true
  | _ => true

/-! ## Completion -/

section
variable {s s' : Tables} {turnID : UUID}

theorem not_isCompleted (hids : (s.turns.map (·.id)).Nodup)
    (h : s.findRunningTurn turnID = .ok turn) : s.isCompleted turnID = false := by
  obtain ⟨hmem, hid, hrunning⟩ := mem_of_findRunningTurn h
  refine List.any_eq_false.2 fun t ht hdone => ?_
  rw [Bool.and_eq_true, beq_iff_eq, beq_iff_eq] at hdone
  rw [List.inj_on_of_nodup_map hids ht hmem (hdone.1.trans hid.symm), hrunning] at hdone
  cases hdone.2

theorem isCompleted_updateTurn (h : s.findRunningTurn turnID = .ok turn) :
    (s.updateTurn turnID fun t => { t with state := .completed }).isCompleted turnID = true := by
  obtain ⟨hmem, hid, _⟩ := mem_of_findRunningTurn h
  refine List.any_eq_true.2 ⟨_, List.mem_map_of_mem hmem, ?_⟩
  rw [if_pos (beq_iff_eq.2 hid), hid]
  simp

theorem completesTurn_of (h : act cfg w a = .ok w') (hbefore : w.tables.isCompleted turnID = false)
    (hafter : w'.tables.isCompleted turnID = true) : completesTurn cfg w a turnID = true := by
  rw [completesTurn, h, hbefore]
  exact hafter

/-- A final result that completes a turn finds it running, and leaves it completed. -/
theorem isCompleted_finalizeTurn (hids : (s.turns.map (·.id)).Nodup) {input : FinalizeTurnInput}
    (h : Tables.finalizeTurn cfg s turnID input newID = .ok s') (hdone : input.state = .completed) :
    s.isCompleted turnID = false ∧ s'.isCompleted turnID = true := by
  obtain ⟨s1, h1, h⟩ := of_bind h
  obtain ⟨s2, h2, h⟩ := of_bind h
  cases h
  obtain ⟨turn, hturn, h1⟩ := of_bind h1
  obtain ⟨rows, _, _, rfl⟩ := appendMessages_ok h1
  refine ⟨not_isCompleted hids hturn, ?_⟩
  rw [finishTurn] at h2
  split at h2
  · cases h2
  next turn hturn =>
    rw [hdone] at h2
    cases h2
    rw [markUnfinishedMessages, if_pos hdone]
    exact isCompleted_updateTurn hturn

end

/-! ## Single writes -/

namespace CompleteBut

section
variable {s : Tables} {turnID : UUID} (h : CompleteBut (some turnID) s)
include h

theorem setState (state : TurnState) :
    CompleteBut (some turnID) (s.updateTurn turnID fun t => { t with state := state }) := by
  grind [CompleteBut, updateTurn]

theorem appendMessages (hs : appendMessages cfg s turnID newID inputs = .ok s') :
    CompleteBut (some turnID) s' := by
  obtain ⟨rows, hrows, _, rfl⟩ := appendMessages_ok hs
  have hids := (newMessages_ok hrows).2
  grind [CompleteBut]

theorem appendTurnEndMessage {newID : UUID}
    (hs : appendTurnEndMessage cfg s turnID newID state text = .ok s') :
    CompleteBut (some turnID) s' := by
  rw [Tables.appendTurnEndMessage] at hs
  split at hs
  · cases hs
    exact h
  · exact h.appendMessages hs

theorem mark (p : Message → Bool) : CompleteBut (some turnID) (s.markIncomplete turnID p) := by
  grind [CompleteBut, markIncomplete]

theorem all (hturn : ∀ t ∈ s.turns, t.id = turnID → t.state = .completed →
    ∀ m ∈ s.messages, m.turnID = turnID → m.incomplete = false) : TurnsComplete s := by
  grind [CompleteBut]

end

end CompleteBut

/-! ## Transactions -/

theorem incomplete_newMessages (h : newMessages cfg turnID newID n inputs = .ok rows)
    (hinputs : ∀ m ∈ inputs, m.incomplete = false) : ∀ m ∈ rows, m.incomplete = false := by
  induction inputs generalizing newID n rows with
  | nil =>
    cases h
    simp
  | cons input inputs ih =>
    obtain ⟨_, _, h⟩ := of_bind h
    obtain ⟨rest, hrest, h⟩ := of_bind h
    grind [messageRow]

namespace TurnsComplete

section
variable {cfg : Config} {s s' : Tables} {turnID : UUID} (hs : TurnsComplete s)
include hs

theorem but : CompleteBut (some turnID) s := fun t ht _ => hs t ht nofun

theorem appendTranscript (hids : (s.turns.map (·.id)).Nodup)
    (h : appendTranscript cfg s turnID newID inputs = .ok s') : TurnsComplete s' := by
  obtain ⟨turn, hturn, h⟩ := of_bind h
  obtain ⟨hmem, hid, hrunning⟩ := mem_of_findRunningTurn hturn
  refine (hs.but.appendMessages h).all fun t ht htid hdone => ?_
  obtain ⟨rows, _, _, rfl⟩ := appendMessages_ok h
  rw [List.inj_on_of_nodup_map hids ht hmem (htid.trans hid.symm), hrunning] at hdone
  cases hdone

theorem endRunningTurn {newID : UUID} {ending : TurnEnd}
    (h : endRunningTurn cfg s turnID newID ending = .ok (ended, s'))
    (hending : ending.state ≠ .completed) : TurnsComplete s' := by
  rw [Tables.endRunningTurn] at h
  split at h
  · cases h
    exact hs
  · obtain ⟨t, ht, h⟩ := of_bind h
    cases h
    refine (((hs.but.setState _).mark _).appendTurnEndMessage ht).all ?_
    rw [Tables.appendTurnEndMessage, if_neg hending] at ht
    obtain ⟨rows, _, _, rfl⟩ := appendMessages_ok ht
    grind [markIncomplete, updateTurn]

theorem interruptTurns {turns : List Turn}
    (h : interruptTurns cfg newID endMessage turns s = .ok s') : TurnsComplete s' := by
  induction turns generalizing s with
  | nil =>
    cases h
    exact hs
  | cons turn turns ih =>
    obtain ⟨⟨_, t⟩, ht, h⟩ := of_bind h
    exact ih (hs.endRunningTurn ht nofun) h

theorem finalizeTurn {input : FinalizeTurnInput}
    (h : finalizeTurn cfg s turnID input newID = .ok s') (hwhole : wholeTurn s turnID input) :
    TurnsComplete s' := by
  obtain ⟨s1, h1, h⟩ := of_bind h
  obtain ⟨s2, h2, h⟩ := of_bind h
  cases h
  obtain ⟨_, _, h1⟩ := of_bind h1
  have hbut := hs.but.appendMessages h1
  rw [finishTurn] at h2
  split at h2
  · cases h2
  have hbut := (hbut.setState _).appendTurnEndMessage h2
  rw [markUnfinishedMessages]
  by_cases hdone : input.state = .completed
  · rw [if_pos hdone]
    rw [appendTurnEndMessage, if_pos hdone] at h2
    refine hbut.all fun t _ _ _ m hm hmid => ?_
    obtain ⟨rows, hrows, _, rfl⟩ := appendMessages_ok h1
    have hrows := incomplete_newMessages hrows
    grind [wholeTurn, updateTurn]
  · rw [if_neg hdone]
    refine (hbut.mark _).all ?_
    rw [appendTurnEndMessage, if_neg hdone] at h2
    obtain ⟨rows, _, _, rfl⟩ := appendMessages_ok h2
    grind [markIncomplete, updateTurn]

theorem resume (hf : ∀ t, (f t).state = .running) : TurnsComplete (s.updateTurn turnID f) := by
  grind [CompleteBut, updateTurn]

theorem admitTurn (hids : (s.turns.map (·.id)).Nodup)
    (h : admitTurn cfg s turnID input newID = .ok s') : TurnsComplete s' := by
  obtain ⟨revision, _, h⟩ := of_bind h
  obtain ⟨t, ht, h⟩ := of_bind h
  obtain ⟨rfl, hfresh⟩ := createTurn_ok ht
  have hopened : TurnsComplete { s with turns := s.turns ++ [newTurn turnID input revision] } := by
    grind [CompleteBut, newTurn]
  refine hopened.appendTranscript ?_ h
  rw [List.map_append]
  exact List.nodup_append.2 ⟨hids, List.nodup_singleton _, by simpa using hfresh⟩

theorem requestCancel : TurnsComplete (s.requestCancel active) := by
  cases active with
  | none => exact hs
  | some active => grind [CompleteBut, requestCancel, updateTurn]

theorem restored (h : Restored cfg s active executionID input newLeaseID execution turn lease s') :
    TurnsComplete s' := by
  rcases h.written with ⟨rfl, _⟩ | ⟨leases, e, executions, _, _, rfl⟩
  · exact hs
  · refine resume ?_ fun _ => rfl
    split
    · grind [CompleteBut, markTurnEndMessagesResumed]
    · exact hs

theorem completionWrite {input : CompleteActivityInput} (hids : (s.turns.map (·.id)).Nodup)
    (h : completionWrite cfg s active execution child activityID input newID = .ok s')
    (hwhole : ∀ turn, input.finish.bind (·.turn) = some turn →
      s.isCompleted execution.rootTurnID = false → s'.isCompleted execution.rootTurnID = true →
      wholeTurn s execution.rootTurnID turn) : TurnsComplete s' := by
  rw [Tables.completionWrite] at h
  split at h
  · split at h
    · obtain ⟨_, _, h⟩ := of_bind h
      cases h
      exact hs
    · obtain ⟨normalized, _, _, _, _, rfl⟩ := saveActivityCompaction_ok h
      intro t ht _ hdone m' hm'
      obtain ⟨m, hm, rfl⟩ := mem_withCompaction hm'
      have hmark := hs t ht (by simp) hdone m hm
      grind [assignedRow]
  · obtain ⟨_, h⟩ := of_require h
    exact hs.appendTranscript hids h
  next turn _ _ hturn =>
    obtain ⟨_, h⟩ := of_require h
    refine hs.finalizeTurn h ?_
    by_cases hdone : turn.state = .completed
    · obtain ⟨hbefore, hafter⟩ := isCompleted_finalizeTurn hids h hdone
      exact hwhole turn hturn hbefore hafter
    · rw [wholeTurn, bne_iff_ne.2 hdone, Bool.true_or]
  · cases h
    exact hs

end

end TurnsComplete

theorem Aside.turnsComplete (h : Aside s s') (hs : TurnsComplete s) : TurnsComplete s' := by
  obtain ⟨_, _, _, rfl⟩ := h.tables
  exact hs

theorem turnsComplete_act {w : World} (hids : (w.tables.turns.map (·.id)).Nodup)
    (hs : TurnsComplete w.tables) (hwhole : completesWhole cfg w a) (h : act cfg w a = .ok w') :
    TurnsComplete w'.tables := by
  cases a with
  | reserveTurn =>
    obtain ⟨_, h⟩ := of_check h
    cases h
    exact hs
  | abandonTurn | releaseTurn | worker =>
    cases h
    exact hs
  | admitTurn =>
    obtain ⟨s, h1, h⟩ := of_bind h
    cases h
    exact hs.admitTurn hids h1
  | appendCheckpoint =>
    obtain ⟨_, _, h⟩ := of_bind h
    obtain ⟨s, h1, h⟩ := of_bind h
    cases h
    exact hs.appendTranscript hids h1
  | finalizeTurn =>
    obtain ⟨_, _, h⟩ := of_bind h
    obtain ⟨_, _, h⟩ := of_bind h
    obtain ⟨s, h1, h⟩ := of_bind h
    cases h
    exact hs.finalizeTurn h1 hwhole
  | endRunningTurn turnID ending newID =>
    have hact := h
    obtain ⟨⟨_, s⟩, h1, h⟩ := of_bind h
    cases h
    by_cases hdone : ending.state = .completed
    · rw [Tables.endRunningTurn] at h1
      split at h1
      · cases h1
        exact hs
      next turn hturn =>
        -- the turn is running, so the call completes it
        rw [hdone] at h1
        cases h1
        have hcompletes := completesTurn_of hact (not_isCompleted hids hturn)
          (isCompleted_updateTurn hturn)
        rw [completesWhole, hcompletes] at hwhole
        cases hwhole
    · exact hs.endRunningTurn h1 hdone
  | recoverInterrupted =>
    obtain ⟨s, h1, h⟩ := of_bind h
    cases h
    exact hs.interruptTurns h1
  | restoreExecutionTurn =>
    obtain ⟨⟨lease, s⟩, h1, h⟩ := of_bind h
    cases h
    obtain ⟨execution, turn, h1⟩ := restoreExecutionTurn_ok h1
    exact hs.restored h1
  | acquireDeferred =>
    obtain ⟨⟨lease, s⟩, h1, h⟩ := of_bind h
    cases h
    obtain ⟨_, message, h1⟩ := acquireDeferredExecutionTurn_ok h1
    rcases h1.written with ⟨turn, _, _, rfl⟩ | ⟨_, h1⟩
    · exact hs.resume fun _ => rfl
    · exact hs.admitTurn hids h1
  | cancel =>
    obtain ⟨s, h1, h⟩ := of_bind h
    cases h
    obtain ⟨changed, executions, _, rfl⟩ := cancel_ok h1
    exact TurnsComplete.requestCancel (s := { w.tables with
      stopRevision := w.tables.stopRevision + 1, executions := executions }) hs
  | createExecution =>
    obtain ⟨s, h1, h⟩ := of_bind h
    cases h
    exact (aside_createExecution h1).turnsComplete hs
  | acceptMessage =>
    obtain ⟨⟨row, s⟩, h1, h⟩ := of_bind h
    cases h
    exact (aside_accept h1).turnsComplete hs
  | acceptChildMessage =>
    obtain ⟨⟨row, s⟩, h1, h⟩ := of_bind h
    cases h
    exact (aside_acceptChild h1).turnsComplete hs
  | queueReport =>
    obtain ⟨s, h1, h⟩ := of_bind h
    cases h
    obtain ⟨execution, row, e, executions, _, _, _, _, rfl⟩ := queueReport_ok h1
    exact hs
  | deliverMessages =>
    obtain ⟨s, h1, h⟩ := of_bind h
    cases h
    obtain ⟨activity, execution, h1⟩ := deliverMessages_ok h1
    obtain ⟨messages, t, ht, h1⟩ := h1.written
    have haside := (aside_deliverInboxRows ht).1
    refine (haside.turnsComplete hs).appendTranscript ?_ h1
    rw [haside.same.turns]
    exact hids
  | deliverChildMessages =>
    obtain ⟨s, h1, h⟩ := of_bind h
    cases h
    obtain ⟨activity, execution, h1⟩ := deliverChildExecutionMessages_ok h1
    exact (aside_deliverChildInboxRows h1.written).turnsComplete hs
  | complete =>
    have hact := h
    obtain ⟨⟨after, s⟩, h1, h⟩ := of_bind h
    cases h
    obtain ⟨before, execution, write, executions, hof, rfl | ⟨written, rfl, _, rfl⟩⟩ :=
      completeExecutionActivity_ok h1
    · exact hs
    · have hwritten : TurnsComplete written := by
        refine hs.completionWrite hids hof.asked.symm fun turn hturn hbefore hafter => ?_
        simp only [completesWhole, hturn, hof.found] at hwhole
        rw [completesTurn_of hact hbefore hafter] at hwhole
        exact hwhole
      exact hwritten
  | claim | interrupt | resolve | pause | resume | pauseUnfinished =>
    obtain ⟨_, _, h⟩ := of_bind h
    cases h
    exact hs

/-- **A completed turn is complete** in every run in which every turn is whole when it completes. -/
theorem turnsComplete_of_whole (cfg : Config) (actions : List Action)
    (h : Along (step cfg) (fun w a => completesWhole cfg w a = true) new actions) :
    Always (step cfg) (fun w => TurnsComplete w.tables) new actions := by
  have hstep : ∀ w a w', Coherent w.tables ∧ TurnsComplete w.tables → completesWhole cfg w a →
      step cfg w a = some w' → Coherent w'.tables ∧ TurnsComplete w'.tables :=
    fun w a w' hs hwhole hw => ⟨coherent_step hs.1 hw,
      turnsComplete_act hs.1.turnIDs hs.2 hwhole (step_eq_some hw).2⟩
  have hnew : Coherent new.tables ∧ TurnsComplete new.tables :=
    ⟨coherent_empty, nofun⟩
  exact (always_of_along hstep hnew h).mono fun _ hs => hs.2

/-- A turn is opened with a message, and its execution is created. -/
def openedTurn : List Action :=
  [.reserveTurn 10 100, .admitTurn ⟨100, 10⟩ (plainTurn 11 "first") (fun _ => 1001),
    .createExecution agreedCreation (plainRoot 30 10 "first")]

/-- The turn is restored for the execution, which finishes it under this lease. -/
def restoredThenFinished (leaseID : UUID) : List Action :=
  [.restoreExecutionTurn 30 (plainRestore 0 0) 101,
    .claim ⟨40, .ok ()⟩ 30 7 ⟨Executions.executionFinishStepID, .preparation, .retry,
      Executions.executionFinishActivityName, Executions.emptyActivityJSON⟩,
    .complete agreedCompletion ⟨40, 7, 1⟩ ⟨Executions.emptyActivityJSON, Executions.emptyActivityJSON,
      some ⟨.completed, "", "", "", some ⟨leaseID, 0⟩,
        some ⟨.completed, [.plain .assistant "done"], ""⟩, false⟩, none, none, none⟩ (2000 + ·)]

/-- A turn that was never interrupted completes. -/
theorem turnsComplete_uninterrupted :
    Along (step plainConfig) (fun w a => completesWhole plainConfig w a = true) new
      (openedTurn ++ restoredThenFinished 100) ∧
    (exec (step plainConfig) new (openedTurn ++ restoredThenFinished 100)).map
      (·.tables.turns.map (·.state)) = some [.completed] ∧
    Always (step plainConfig) (fun w => TurnsComplete w.tables) new
      (openedTurn ++ restoredThenFinished 100) := by
  have hwhole : Along (step plainConfig) (fun w a => completesWhole plainConfig w a = true)
      new (openedTurn ++ restoredThenFinished 100) := by decide +kernel
  exact ⟨hwhole, by decide +kernel, turnsComplete_of_whole plainConfig _ hwhole⟩

/-- The process dies while the turn runs, so its message is marked incomplete; the restored turn
completes with the mark. -/
theorem marked_after_restore : ¬ Always (step plainConfig) (fun w => TurnsComplete w.tables) new
      (openedTurn ++ .recoverInterrupted (fun _ => "interrupted") (fun _ => 1100) ::
        restoredThenFinished 101) := by
  decide +kernel

end Peen.Sessions
