import Peen.Session.ActivityRefinement
import Peen.Session.ExecutionWrites

/-!
# What a call does

One inversion of `act`.
-/

namespace Peen.Sessions

open Executions

/-! ## Beside the transcript -/

/-- Nothing is written but inboxes, messages of agent runs, and executions with their events. -/
structure Aside (s s' : Tables) : Prop where
  tables : ∃ inbox messages executions,
    s' = { s with inbox := inbox, agentRunMessages := messages, executions := executions }
  activities : s'.executions.activities = s.executions.activities

section Aside
variable {s : Tables}

theorem Aside.refl (s : Tables) : Aside s s := ⟨⟨_, _, _, rfl⟩, rfl⟩

theorem Aside.trans (h : Aside s s') (h' : Aside s' s'') : Aside s s'' := by
  obtain ⟨⟨_, _, _, rfl⟩, hacts⟩ := h
  obtain ⟨⟨_, _, _, rfl⟩, hacts'⟩ := h'
  exact ⟨⟨_, _, _, rfl⟩, hacts'.trans hacts⟩

theorem Aside.append (h : s.executions.appendExecutionEvent e kind payload = .ok (e', executions)) :
    Aside s { s with inbox := inbox, agentRunMessages := messages, executions := executions } :=
  ⟨⟨_, _, _, rfl⟩, Store.activities_appendExecutionEvent h⟩

theorem InsertedChildRow.aside (h : InsertedChildRow s execution input newID row s') :
    Aside s s' := by
  obtain ⟨_, _, e, executions, he, rfl⟩ := h
  exact .append he

theorem ResumedChild.aside (h : ResumedChild cfg s execution input noticeID newID row s') :
    Aside s s' := by
  obtain ⟨changed, executions, resumed, noticed, t, hchd, _, ht, hrow⟩ := h
  have hres : Aside s { s with executions := executions } :=
    ⟨⟨_, _, _, rfl⟩, Store.activities_changeExecutions hchd⟩
  rcases ht with ⟨rfl, _⟩ | ⟨_, notice, hnot⟩
  · exact hres.trans hrow.aside
  · exact (hres.trans hnot.aside).trans hrow.aside

namespace Tables

theorem aside_acceptChild (h : acceptChildExecutionMessage cfg s executionID input noticeID newID
      = .ok (row, s')) : Aside s s' := by
  obtain ⟨execution, _, ⟨_, _, rfl⟩ | ⟨_, _, h⟩ | ⟨_, _, h⟩⟩ :=
    acceptChildExecutionMessage_ok h
  · exact .refl _
  · exact h.aside
  · exact h.aside

theorem aside_accept (h : acceptExecutionInbox cfg s active boundary executionID lease input
      (acceptanceState deferred) newID = .ok (row, s')) : Aside s s' := by
  obtain ⟨execution, _, ⟨_, _, rfl⟩ | ⟨_, h⟩⟩ :=
    acceptExecutionInbox_ok (acceptanceState_cases deferred) h
  · exact .refl _
  · rw [h.written]
    exact ⟨⟨_, _, _, rfl⟩, rfl⟩

theorem aside_deliverInboxRows {messages : List MessageInput}
    (h : deliverInboxRows execution activity requestIDs s = .ok (messages, s')) :
    Aside s s' ∧ s'.executions = s.executions := by
  induction requestIDs generalizing s messages with
  | nil =>
    cases h
    exact ⟨.refl _, rfl⟩
  | cons requestID requestIDs ih =>
    obtain ⟨row, _, h⟩ := of_bind h
    obtain ⟨⟨first, t⟩, ht, h⟩ := of_bind h
    obtain ⟨⟨rest, u⟩, hu, h⟩ := of_bind h
    cases h
    obtain ⟨haside, hexs⟩ := ih hu
    rcases (deliverInboxRow_ok ht).2 with ⟨_, _, _, rfl⟩ | ⟨_, _, rfl⟩
    · exact ⟨haside, hexs⟩
    · refine ⟨Aside.trans ?_ haside, hexs⟩
      exact ⟨⟨_, _, _, rfl⟩, rfl⟩

theorem aside_deliverChildInboxRows
    (h : deliverChildInboxRows run agentRunID activity execution requestIDs s = .ok s') :
    Aside s s' := by
  induction requestIDs generalizing s execution with
  | nil =>
    cases h
    exact .refl _
  | cons requestID requestIDs ih =>
    obtain ⟨row, _, h⟩ := of_bind h
    obtain ⟨⟨execution', t⟩, ht, h⟩ := of_bind h
    refine Aside.trans ?_ (ih h)
    rcases (deliverChildInboxRow_ok ht).2 with ⟨_, _, _, rfl⟩ | ⟨_, executions, he, rfl⟩
    · exact .refl _
    · exact .append he

theorem aside_bindDeferred
    (h : bindDeferredExecution cfg s answers target inboxID = .ok s') : Aside s s' := by
  rcases bindDeferredExecution_ok h with rfl |
    ⟨message, source, e, executions, _, _, _, he, rfl⟩
  · exact .refl _
  · exact .append he

theorem aside_createExecution {input : CreateExecutionInput}
    (h : createExecution cfg s answers input = .ok s') : Aside s s' := by
  rcases createExecution_ok h with ⟨existing, _, h⟩ | ⟨created, t, u, _, ht, hu, h⟩
  · exact aside_bindDeferred h
  · obtain ⟨_, rfl⟩ := insertExecution_ok ht
    refine Aside.trans ?_ ((aside_bindDeferred hu).trans ?_)
    · exact ⟨⟨_, _, _, rfl⟩, rfl⟩
    obtain ⟨e, executions, he, rfl | ⟨e', executions', he', rfl⟩⟩ :=
      recordExecutionCreation_ok h
    · exact .append he
    · refine ⟨⟨_, _, _, rfl⟩, (Store.activities_appendExecutionEvent he').trans ?_⟩
      exact Store.activities_appendExecutionEvent he

end Tables

end Aside

/-! ## Calls -/

/-- The calls on the execution tables alone, with what they tell. -/
inductive ExecutionCall (cfg : Config) (s : Store) :
    Action → List Entry → Store → Prop
  | claim {answers executionID generationID input r}
      (h : s.beginExecutionActivity cfg.toConfig answers cfg.sessionID executionID generationID input
        = .ok r) :
      ExecutionCall cfg s (.claim answers executionID generationID input)
        [.claimed executionID r.1.decision] r.2
  | interrupt {lease s'} (h : s.interruptExecutionActivity cfg.sessionID lease = .ok s') :
      ExecutionCall cfg s (.interrupt lease) [] s'
  | resolve {activityID input r}
      (h : s.resolveExecutionActivity cfg.toConfig cfg.sessionID activityID input = .ok r) :
      ExecutionCall cfg s (.resolve activityID input) [] r.2
  | pause {executionID reason r}
      (h : s.pauseExecution cfg.toConfig cfg.sessionID executionID reason = .ok r) :
      ExecutionCall cfg s (.pause executionID reason) [] r.2
  | resume {executionID r} (h : s.resumeExecution cfg.sessionID executionID = .ok r) :
      ExecutionCall cfg s (.resume executionID) [.resumed executionID] r.2
  | pauseUnfinished {r} (h : s.pauseUnfinishedExecutions cfg.sessionID = .ok r) :
      ExecutionCall cfg s .pauseUnfinished [] r.2

/-- A call that writes beside the transcript. -/
inductive AsideCall (cfg : Config) (w : World) : Action → List Entry → Tables → Prop
  | create {answers input s} (h : Tables.createExecution cfg w.tables answers input = .ok s) :
      AsideCall cfg w (.createExecution answers input) [] s
  | accept {boundary executionID lease input deferred newID row s}
      (h : Tables.acceptExecutionInbox cfg w.tables w.active boundary executionID lease input
        (acceptanceState deferred) newID = .ok (row, s)) :
      AsideCall cfg w (.acceptMessage boundary executionID lease input deferred newID) [] s
  | acceptChild {executionID input noticeID newID row s}
      (h : Tables.acceptChildExecutionMessage cfg w.tables executionID input noticeID newID
        = .ok (row, s)) :
      AsideCall cfg w (.acceptChildMessage executionID input noticeID newID)
        (resumedEntries cfg w.tables executionID input.requestID) s
  | queueReport {executionID requestID sourceEventID text newID s}
      (h : Tables.queueReport cfg w.tables executionID requestID sourceEventID text newID = .ok s) :
      AsideCall cfg w (.queueReport executionID requestID sourceEventID text newID) [] s
  | deliverChild {run lease requestIDs activity execution s}
      (h : DeliveredChildBy cfg w.tables run lease requestIDs activity execution s) :
      AsideCall cfg w (.deliverChildMessages run lease requestIDs)
        (deliveredEntries w.tables lease.id requestIDs) s

/-- What a call that succeeds has done, for case analyses. -/
inductive Acted (cfg : Config) (w : World) : Action → World → Prop
  | reserve {turnID leaseID} (free : w.active = none) :
      Acted cfg w (.reserveTurn turnID leaseID)
        { w with active := some ⟨turnID, leaseID⟩, pending := ⟨leaseID, turnID⟩ :: w.pending }
  | abandon {lease} : Acted cfg w (.abandonTurn lease)
      { w with active := releaseTurn w.active lease, pending := w.pending.erase lease }
  | release {lease} : Acted cfg w (.releaseTurn lease)
      { w with active := releaseTurn w.active lease }
  | worker {worker} : Acted cfg w (.worker worker)
      { w with tables := { w.tables with worker := worker } }
  | admitted {lease input newID s}
      (h : Tables.admitTurn cfg w.tables lease.turnID input newID = .ok s) :
      Acted cfg w (.admitTurn lease input newID)
        { w.commit s [.acquired lease, .admitted lease.turnID] with
          pending := w.pending.erase lease }
  | write {a s} (other : a ≠ .cancel) (writes : Writes w.tables s) : Acted cfg w a (w.commit s [])
  | recover {endMessage newID s} (writes : Writes w.tables s) :
      Acted cfg w (.recoverInterrupted endMessage newID)
        { w.commit s [] with active := w.active.filter fun a =>
            !(w.tables.turns.filter (·.state == .running)).any (·.id == a.turnID) }
  | restore {executionID input newLeaseID lease execution turn s}
      (h : Restored cfg w.tables w.active executionID input newLeaseID execution turn lease s) :
      Acted cfg w (.restoreExecutionTurn executionID input newLeaseID)
        { w.commit s [.restored executionID lease] with active := some ⟨lease.turnID, lease.id⟩ }
  | acquire {boundary inboxID input newLeaseID newID lease message s}
      (chosen : lease =
        Tables.deferredLease w.active (Tables.deferredTurnID cfg inboxID) newLeaseID)
      (h : AcquiredDeferred cfg w.tables w.active (Tables.deferredTurnID cfg inboxID) inboxID input
        newLeaseID newID message s) :
      Acted cfg w (.acquireDeferred boundary inboxID input newLeaseID newID)
        { w.commit s (.acquired lease :: admittedEntries w.tables lease.turnID) with
          active := some ⟨lease.turnID, lease.id⟩ }
  | cancel {changed executions}
      (h : Store.changeExecutions .pause executionUserStopReason
        (.reason executionUserStopReason)
        (w.tables.executions.executions.filter (·.sessionID == cfg.sessionID)) w.tables.executions
        = .ok (changed, executions)) :
      Acted cfg w .cancel (w.commit (Tables.requestCancel { w.tables with
        stopRevision := w.tables.stopRevision + 1, executions := executions } w.active) [.stopped])
  | deliver {turnLease modelLease requestIDs newID activity execution s}
      (h : DeliveredBy cfg w.tables w.active turnLease modelLease requestIDs newID activity execution
        s) :
      Acted cfg w (.deliverMessages turnLease modelLease requestIDs newID)
        (w.commit s (deliveredEntries w.tables modelLease.id requestIDs))
  | complete {answers lease input newID after s}
      (h : Tables.completeExecutionActivity cfg w.tables w.active answers lease input newID
        = .ok (after, s)) :
      Acted cfg w (.complete answers lease input newID)
        { w.commit s [] with active := Tables.releaseFinishedExecutionTurn w.active after input }
  | aside {a told s} (call : AsideCall cfg w a told s) (aside : Aside w.tables s) :
      Acted cfg w a (w.commit s told)
  | executions {a told s} (call : ExecutionCall cfg w.tables.executions a told s) :
      Acted cfg w a (w.commitExecutions s told)

/-- **Every call that succeeds is one of these.** -/
theorem act_acted (h : act cfg w a = .ok w') : Acted cfg w a w' := by
  cases a with
  | reserveTurn =>
    obtain ⟨hfree, h⟩ := of_check h
    cases h
    exact .reserve (Option.not_isSome_iff_eq_none.1 hfree)
  | admitTurn =>
    obtain ⟨s, hs, h⟩ := of_bind h
    cases h
    exact .admitted hs
  | abandonTurn lease => cases h; exact .abandon
  | appendCheckpoint =>
    obtain ⟨_, _, h⟩ := of_bind h
    obtain ⟨s, hs, h⟩ := of_bind h
    cases h
    exact .write nofun (Tables.writes_appendTranscript hs)
  | finalizeTurn =>
    obtain ⟨_, _, h⟩ := of_bind h
    obtain ⟨_, _, h⟩ := of_bind h
    obtain ⟨s, hs, h⟩ := of_bind h
    cases h
    exact .write nofun (Tables.writes_finalizeTurn hs)
  | releaseTurn lease => cases h; exact .release
  | endRunningTurn =>
    obtain ⟨⟨_, s⟩, hs, h⟩ := of_bind h
    cases h
    exact .write nofun (Tables.writes_endRunningTurn hs)
  | recoverInterrupted =>
    obtain ⟨s, hs, h⟩ := of_bind h
    cases h
    exact .recover (Tables.writes_interruptTurns hs)
  | restoreExecutionTurn =>
    obtain ⟨⟨lease, s⟩, hs, h⟩ := of_bind h
    cases h
    obtain ⟨execution, turn, hs⟩ := Tables.restoreExecutionTurn_ok hs
    exact .restore hs
  | acquireDeferred =>
    obtain ⟨⟨lease, s⟩, hs, h⟩ := of_bind h
    cases h
    obtain ⟨hls, message, hs⟩ := Tables.acquireDeferredExecutionTurn_ok hs
    exact .acquire hls hs
  | createExecution =>
    obtain ⟨s, hs, h⟩ := of_bind h
    cases h
    exact .aside (.create hs) (Tables.aside_createExecution hs)
  | cancel =>
    obtain ⟨s, hs, h⟩ := of_bind h
    cases h
    obtain ⟨changed, executions, hpau, rfl⟩ := Tables.cancel_ok hs
    exact .cancel hpau
  | acceptMessage =>
    obtain ⟨⟨row, s⟩, hs, h⟩ := of_bind h
    cases h
    exact .aside (.accept hs) (Tables.aside_accept hs)
  | acceptChildMessage =>
    obtain ⟨⟨row, s⟩, hs, h⟩ := of_bind h
    cases h
    exact .aside (.acceptChild hs) (Tables.aside_acceptChild hs)
  | queueReport =>
    obtain ⟨s, hs, h⟩ := of_bind h
    cases h
    refine .aside (.queueReport hs) ?_
    obtain ⟨execution, row, e, executions, _, _, _, he, rfl⟩ := Tables.queueReport_ok hs
    exact .append he
  | deliverMessages =>
    obtain ⟨s, hs, h⟩ := of_bind h
    cases h
    obtain ⟨activity, execution, hs⟩ := Tables.deliverMessages_ok hs
    exact .deliver hs
  | deliverChildMessages =>
    obtain ⟨s, hs, h⟩ := of_bind h
    cases h
    obtain ⟨activity, execution, hs⟩ := Tables.deliverChildExecutionMessages_ok hs
    exact .aside (.deliverChild hs) (Tables.aside_deliverChildInboxRows hs.written)
  | complete =>
    obtain ⟨⟨after, s⟩, hs, h⟩ := of_bind h
    cases h
    exact .complete hs
  | claim =>
    obtain ⟨r, hs, h⟩ := of_bind h
    cases h
    exact .executions (.claim hs)
  | interrupt lease =>
    obtain ⟨executions, hs, h⟩ := of_bind h
    cases h
    exact .executions (.interrupt hs)
  | resolve =>
    obtain ⟨r, hs, h⟩ := of_bind h
    cases h
    exact .executions (.resolve hs)
  | pause =>
    obtain ⟨r, hs, h⟩ := of_bind h
    cases h
    exact .executions (.pause hs)
  | resume =>
    obtain ⟨r, hs, h⟩ := of_bind h
    cases h
    exact .executions (.resume hs)
  | pauseUnfinished =>
    obtain ⟨r, hs, h⟩ := of_bind h
    cases h
    exact .executions (.pauseUnfinished hs)
  | worker => cases h; exact .worker

end Peen.Sessions
