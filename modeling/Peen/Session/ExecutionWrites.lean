import Peen.Session.Writes

/-!
# What the transactions of executions write

The inboxes, the creation of executions, the stop of a session and the completion of activities:
what each transaction found, and what it wrote beside the table of executions.
-/

namespace Peen.Sessions

open Tables Tables Executions

/-! ## Inboxes -/

variable {execution : Execution}

section Inbox
variable {cfg : Config} {s s' : Tables} {row : ExecutionInboxMessage}

theorem Tables.createInboxMessage_ok (h : s.createInboxMessage row = .ok s') :
    s' = { s with inbox := s.inbox ++ [row] } ∧ ∀ r ∈ s.inbox, r.id ≠ row.id ∧
      r.requestID ≠ row.requestID ∧
      ¬ (r.executionID = row.executionID ∧ r.sequence = row.sequence) := by
  obtain ⟨hnone, h⟩ := of_check h
  cases h
  refine ⟨rfl, fun r hr => ?_⟩
  have hkeys := (List.any_eq_false.1 (Bool.eq_false_of_not_eq_true hnone)) r hr
  simp only [Bool.or_eq_true, Bool.and_eq_true, beq_iff_eq, not_or] at hkeys
  exact ⟨hkeys.1.1, hkeys.1.2, hkeys.2⟩

/-- A new row gets the next sequence, under keys of its own. -/
structure Inserted (s : Tables) (executionID : UUID) (row : ExecutionInboxMessage) : Prop where
  execution : row.executionID = executionID
  sequence : row.sequence = s.latestInboxSequence executionID + 1
  undelivered : row.state ≠ .delivered ∧ row.state ≠ .forwarded
  unbound : row.deliveredActivityID = none ∧ row.forwardedExecutionID = none
  keys : ∀ r ∈ s.inbox, r.id ≠ row.id ∧ r.requestID ≠ row.requestID ∧
    ¬ (r.executionID = row.executionID ∧ r.sequence = row.sequence)

variable {executionID newID : UUID} {input : AcceptExecutionMessageInput}
  {state : InboxMessageState} {activity : ExecutionActivity} {requestIDs : List UUID}

theorem Tables.nextInboxSequence_ok {sequence : Nat}
    (h : s.nextInboxSequence executionID = .ok sequence) :
    sequence = s.latestInboxSequence executionID + 1 := by
  obtain ⟨_, h⟩ := of_check h
  cases h; rfl

theorem Tables.inserted_inboxRow {id : UUID} {sequence : Nat} {revision : Nat}
    (hst : state = .queued ∨ state = .deferred)
    (hseq : s.nextInboxSequence executionID = .ok sequence)
    (hrow : s.createInboxMessage (inboxRow id executionID turnID input sequence state revision) =
      .ok s') :
    Inserted s executionID (inboxRow id executionID turnID input sequence state revision) := by
  obtain ⟨_, hkeys⟩ := createInboxMessage_ok hrow
  refine ⟨rfl, nextInboxSequence_ok hseq, ?_, ⟨rfl, rfl⟩, hkeys⟩
  rcases hst with rfl | rfl
  · exact ⟨nofun, nofun⟩
  · exact ⟨nofun, nofun⟩

/-- A message for a root was accepted. -/
structure InsertedRow (s : Tables) (execution : Execution) (lease : Lease)
    (input : AcceptExecutionMessageInput) (state : InboxMessageState) (newID : UUID)
    (row : ExecutionInboxMessage) (s' : Tables) : Prop where
  unpaused : execution.state ≠ .paused ∧ isExecutionTerminal execution.state = false
  revision : validateStopRevision input.expectedStopRevision s.stopRevision = .ok ()
  values : row = inboxRow newID execution.id lease.turnID input
    (s.latestInboxSequence execution.id + 1) state s.stopRevision
  inserted : Inserted s execution.id row
  written : s' = { s with inbox := s.inbox ++ [row] }

theorem Tables.insertInboxMessage_ok (hst : state = .queued ∨ state = .deferred)
    (hadm : validateInboxAdmission execution state boundary = .ok u)
    (h : s.insertInboxMessage execution lease input state newID = .ok (row, s')) :
    InsertedRow s execution lease input state newID row s' := by
  obtain ⟨revision, hrev, h⟩ := of_bind h
  obtain ⟨_, hval, hrev⟩ := of_bind hrev
  cases hrev
  obtain ⟨_, _, h⟩ := of_bind h
  obtain ⟨sequence, hseq, h⟩ := of_bind h
  obtain ⟨t, ht, h⟩ := of_bind h
  obtain ⟨_, _, h⟩ := of_bind h
  cases h
  have hnext := nextInboxSequence_ok hseq
  have hins := inserted_inboxRow hst hseq ht
  subst hnext
  obtain ⟨rfl, _⟩ := createInboxMessage_ok ht
  obtain ⟨hheld, hadm⟩ := of_check hadm
  obtain ⟨hpau, hlive⟩ := not_or.1 hheld
  exact ⟨⟨hpau, Bool.eq_false_of_not_eq_true hlive⟩, hval, rfl, hins, rfl⟩

theorem acceptanceState_cases (deferred : Bool) :
    acceptanceState deferred = .queued ∨ acceptanceState deferred = .deferred := by
  cases deferred
  · exact .inl rfl
  · exact .inr rfl

/-- What the acceptance of a message for a root found, before it answered with the saved row or
inserted one. -/
structure AcceptedFor (cfg : Config) (s : Tables) (active : Option ActiveTurn) (executionID : UUID)
    (lease : Lease) (execution : Execution) : Prop where
  held : hasLease active lease
  found : s.executions.findExecution cfg.sessionID executionID = .ok execution
  root : execution.kind = .root ∧ execution.rootTurnID = lease.turnID

theorem Tables.acceptExecutionInbox_ok (hst : state = .queued ∨ state = .deferred)
    (h : acceptExecutionInbox cfg s active boundary executionID lease input state newID =
      .ok (row, s')) :
    ∃ execution, AcceptedFor cfg s active executionID lease execution ∧
      ((s.inboxRequest? input.requestID = some row ∧
          validateInboxReplay row executionID input state = .ok () ∧ s' = s) ∨
        (s.inboxRequest? input.requestID = none ∧
          InsertedRow s execution lease input state newID row s')) := by
  obtain ⟨_, _, h⟩ := of_bind h
  obtain ⟨_, hheld, h⟩ := of_bind h
  obtain ⟨execution, hfd, h⟩ := of_bind h
  obtain ⟨_, hroot, h⟩ := of_bind h
  obtain ⟨hoth, hroot⟩ := of_check hroot
  obtain ⟨hkind, hturn⟩ := not_or.1 hoth
  refine ⟨execution, ⟨holdLease_ok hheld, hfd, not_not.1 hkind, not_not.1 hturn⟩, ?_⟩
  split at h
  next existing hex =>
    obtain ⟨_, hreplay, h⟩ := of_bind h
    cases h
    exact .inl ⟨hex, hreplay, rfl⟩
  next hnone =>
    obtain ⟨_, hadm, h⟩ := of_bind h
    exact .inr ⟨hnone, insertInboxMessage_ok hst hadm h⟩

/-- A message for a child was accepted. -/
structure InsertedChildRow (s : Tables) (execution : Execution)
    (input : AcceptExecutionMessageInput) (newID : UUID) (row : ExecutionInboxMessage)
    (s' : Tables) : Prop where
  values : row = inboxRow newID execution.id execution.rootTurnID input
    (s.latestInboxSequence execution.id + 1) .queued 0
  inserted : Inserted s execution.id row
  written : ∃ e executions, s.executions.appendExecutionEvent execution .inboxQueued
      (.inbox row.id row.requestID none execution.agentRunID) = .ok (e, executions) ∧
    s' = { s with inbox := s.inbox ++ [row], executions := executions }

theorem Tables.insertChildInboxMessage_ok
    (h : s.insertChildInboxMessage execution input newID = .ok (row, s')) :
    InsertedChildRow s execution input newID row s' := by
  obtain ⟨_, _, h⟩ := of_bind h
  obtain ⟨_, _, h⟩ := of_bind h
  obtain ⟨sequence, hseq, h⟩ := of_bind h
  obtain ⟨t, ht, h⟩ := of_bind h
  have hnext := nextInboxSequence_ok hseq
  have hins := inserted_inboxRow (.inl rfl) hseq ht
  subst hnext
  obtain ⟨rfl, _⟩ := createInboxMessage_ok ht
  obtain ⟨⟨e, executions⟩, he, h⟩ := of_bind h
  cases h
  exact ⟨rfl, hins, e, executions, he, rfl⟩

/-- What a message that resumes a child does: its tree is resumed, a notice may be queued, and then
the message. -/
structure ResumedChild (cfg : Config) (s : Tables) (execution : Execution)
    (input : AcceptExecutionMessageInput) (noticeID newID : UUID) (row : ExecutionInboxMessage)
    (s' : Tables) : Prop where
  written : ∃ changed executions resumed noticed t,
    s.executions.changeExecutionSubtree cfg.sessionID execution.id .resume ""
      (.request input.requestID) = .ok (changed, executions) ∧
    executions.findExecution cfg.sessionID execution.id = .ok resumed ∧
    ((t = { s with executions := executions } ∧ noticed = resumed) ∨
      noticed = { resumed with eventCount := resumed.eventCount + 1 } ∧ ∃ notice,
        InsertedChildRow { s with executions := executions } resumed (resumeNotice cfg input)
          noticeID notice t) ∧
    InsertedChildRow t noticed input newID row s'

theorem Tables.resumeChildWithMessage_ok
    (h : resumeChildWithMessage cfg s execution input noticeID newID = .ok (row, s')) :
    ResumedChild cfg s execution input noticeID newID row s' := by
  obtain ⟨⟨changed, executions⟩, hchd, h⟩ := of_bind h
  obtain ⟨resumed, hres, h⟩ := of_bind h
  obtain ⟨⟨noticed, t⟩, hnot, h⟩ := of_bind h
  have hrow := insertChildInboxMessage_ok h
  refine ⟨changed, executions, resumed, noticed, t, hchd, hres, ?_, hrow⟩
  rw [queueResumeNotice] at hnot
  split at hnot
  · cases hnot
    exact .inl ⟨rfl, rfl⟩
  · obtain ⟨⟨notice, t'⟩, hinsert, hnot⟩ := of_bind hnot
    cases hnot
    exact .inr ⟨rfl, notice, insertChildInboxMessage_ok hinsert⟩

theorem Tables.acceptChildExecutionMessage_ok
    (h : acceptChildExecutionMessage cfg s executionID input noticeID newID = .ok (row, s')) :
    ∃ execution, s.executions.findExecution cfg.sessionID executionID = .ok execution ∧
      ((s.inboxRequest? input.requestID = some row ∧ sameInboxInput row executionID input ∧
          s' = s) ∨
        (s.inboxRequest? input.requestID = none ∧ execution.state = .paused ∧
          ResumedChild cfg s execution input noticeID newID row s') ∨
        (s.inboxRequest? input.requestID = none ∧ execution.state ≠ .paused ∧
          InsertedChildRow s execution input newID row s')) := by
  obtain ⟨_, _, h⟩ := of_bind h
  obtain ⟨execution, hfd, h⟩ := of_bind h
  obtain ⟨_, _, h⟩ := of_bind h
  refine ⟨execution, hfd, ?_⟩
  split at h
  next existing hex =>
    obtain ⟨hsame, h⟩ := of_require h
    cases h
    exact .inl ⟨hex, hsame, rfl⟩
  next hnone =>
    split at h
    · cases h
    split at h
    next hpau =>
      exact .inr (.inl ⟨hnone, hpau, resumeChildWithMessage_ok h⟩)
    next hpau =>
      exact .inr (.inr ⟨hnone, hpau, insertChildInboxMessage_ok h⟩)

theorem Tables.queueReport_ok
    (h : queueReport cfg s executionID requestID sourceEventID text newID = .ok s') :
    ∃ execution row e executions,
      s.executions.findExecution cfg.sessionID executionID = .ok execution ∧
      Inserted s execution.id row ∧ (row.requestID = requestID ∧ row.state = .queued ∧
        (sourceEventID ≠ UUID.nil → row.sourceEventID = some sourceEventID)) ∧
      s.executions.appendExecutionEvent execution .inboxQueued
        (.inbox row.id row.requestID none execution.agentRunID) = .ok (e, executions) ∧
      s' = { s with inbox := s.inbox ++ [row], executions := executions } := by
  obtain ⟨execution, hfd, h⟩ := of_bind h
  obtain ⟨_, _, h⟩ := of_bind h
  obtain ⟨sequence, hseq, h⟩ := of_bind h
  obtain ⟨t, ht, h⟩ := of_bind h
  have hins := inserted_inboxRow (.inl rfl) hseq ht
  obtain ⟨rfl, _⟩ := createInboxMessage_ok ht
  obtain ⟨⟨e, executions⟩, he, h⟩ := of_bind h
  cases h
  exact ⟨execution, _, e, executions, hfd, hins, ⟨rfl, rfl, fun hne => if_neg hne⟩, he, rfl⟩

/-! ### Delivery -/

def delivered (activityID : UUID) (row : ExecutionInboxMessage) : ExecutionInboxMessage :=
  { row with state := .delivered, deliveredActivityID := some activityID }

namespace Tables

theorem findInboxRequest_ok (h : s.findInboxRequest requestID = .ok row) :
    s.inboxRequest? requestID = some row := by
  rw [findInboxRequest] at h
  split at h
  · cases h
  next hrow =>
    cases h
    exact hrow

theorem mem_of_inboxRequest? (h : s.inboxRequest? requestID = some row) :
    row ∈ s.inbox ∧ row.requestID = requestID :=
  ⟨List.mem_of_find?_eq_some h, by simpa using List.find?_some h⟩

theorem saveDelivered_ok (h : s.saveDelivered row activityID = .ok s') :
    row.forwardedExecutionID = none ∧ s' = s.updateInbox row.id (delivered activityID) := by
  obtain ⟨hnone, h⟩ := of_check h
  cases h
  exact ⟨Option.not_isSome_iff_eq_none.1 hnone, rfl⟩

theorem deliverInboxRow_ok {messages : List MessageInput}
    (h : s.deliverInboxRow execution activity row = .ok (messages, s')) :
    row.executionID = execution.id ∧
      ((row.state = .delivered ∧ row.deliveredActivityID = some activity.id ∧ messages = [] ∧
          s' = s) ∨
        (row.state ≠ .delivered ∧ messages = inboxTranscriptMessages row ∧
          s' = s.updateInbox row.id (delivered activity.id))) := by
  obtain ⟨hexec, h⟩ := of_check h
  refine ⟨not_not.1 hexec, ?_⟩
  split at h
  next hdel =>
    obtain ⟨hact, h⟩ := of_check h
    cases h
    exact .inl ⟨hdel, not_not.1 hact, rfl, rfl⟩
  next hdel =>
    obtain ⟨t, ht, h⟩ := of_bind h
    cases h
    exact .inr ⟨hdel, rfl, (saveDelivered_ok ht).2⟩

theorem checkDelivery_ok (h : checkDelivery deliverable refusal = .ok u) : deliverable = true := by
  obtain ⟨_, h⟩ := of_require h
  assumption

theorem validateInboxDeliveryIDs_ok (h : validateInboxDeliveryIDs cfg activity requestIDs = .ok u) :
    cfg.inboxIDs activity.inputJSON = some requestIDs ∧ requestIDs.Nodup := by
  rw [validateInboxDeliveryIDs] at h
  split at h
  · cases h
  rename_i saved hsv
  obtain ⟨hsame, h⟩ := of_check h
  obtain ⟨hnd, h⟩ := of_require h
  exact ⟨by rw [hsv, not_not.1 hsame], hnd.1⟩

end Tables

/-- A delivery: who made it and what it wrote. -/
structure DeliveredBy (cfg : Config) (s : Tables) (active : Option ActiveTurn) (turnLease : Lease)
    (modelLease : ActivityLease) (requestIDs : List UUID) (newID : Nat → UUID)
    (activity : ExecutionActivity) (execution : Execution) (s' : Tables) : Prop where
  held : hasLease active turnLease
  found : s.executions.activityForLease cfg.sessionID modelLease = .ok (activity, execution)
  deliverable : canDeliverExecutionInbox activity execution turnLease
  named : cfg.inboxIDs activity.inputJSON = some requestIDs ∧ requestIDs.Nodup
  written : ∃ messages t,
    deliverInboxRows execution activity requestIDs s = .ok (messages, t) ∧
    appendTranscript cfg t turnLease.turnID newID messages = .ok s'

theorem Tables.deliverMessages_ok {active : Option ActiveTurn} {turnLease : Lease}
    {modelLease : ActivityLease} {newID : Nat → UUID}
    (h : deliverMessages cfg s active turnLease modelLease requestIDs newID = .ok s') :
    ∃ activity execution, DeliveredBy cfg s active turnLease modelLease requestIDs newID activity
      execution s' := by
  obtain ⟨_, hheld, h⟩ := of_bind h
  obtain ⟨⟨activity, execution⟩, hfd, h⟩ := of_bind h
  obtain ⟨_, hdab, h⟩ := of_bind h
  obtain ⟨_, hnm, h⟩ := of_bind h
  obtain ⟨_, _, h⟩ := of_bind h
  obtain ⟨⟨messages, t⟩, hrows, h⟩ := of_bind h
  exact ⟨activity, execution, holdLease_ok hheld, hfd, checkDelivery_ok hdab,
    validateInboxDeliveryIDs_ok hnm, messages, t, hrows, h⟩

theorem Tables.deliverChildInboxRow_ok
    (h : s.deliverChildInboxRow run execution agentRunID activity row = .ok (execution', s')) :
    row.executionID = execution.id ∧
      ((row.state = .delivered ∧ row.deliveredActivityID = some activity.id ∧
          execution' = execution ∧ s' = s) ∨
        (row.state ≠ .delivered ∧ ∃ executions,
          s.executions.appendExecutionEvent execution .inboxDelivered
            (.inbox row.id row.requestID (some activity.id) (some agentRunID))
              = .ok (execution', executions) ∧
          s' = { s.updateInbox row.id (delivered activity.id) with
                 agentRunMessages := s.agentRunMessages ++
                   (inboxTranscriptMessages row).map (agentRunMessage agentRunID)
                 executions := executions })) := by
  obtain ⟨hexec, h⟩ := of_check h
  refine ⟨not_not.1 hexec, ?_⟩
  split at h
  next hdel =>
    obtain ⟨hact, h⟩ := of_check h
    cases h
    exact .inl ⟨hdel, not_not.1 hact, rfl, rfl⟩
  next hdel =>
    obtain ⟨_, _, h⟩ := of_bind h
    obtain ⟨t, ht, h⟩ := of_bind h
    obtain ⟨_, rfl⟩ := saveDelivered_ok ht
    obtain ⟨_, _, h⟩ := of_bind h
    obtain ⟨⟨e, executions⟩, he, h⟩ := of_bind h
    cases h
    exact .inr ⟨hdel, executions, he, rfl⟩

/-- The same for a child. -/
structure DeliveredChildBy (cfg : Config) (s : Tables) (run : Except Err Unit)
    (lease : ActivityLease) (requestIDs : List UUID) (activity : ExecutionActivity)
    (execution : Execution) (s' : Tables) : Prop where
  found : s.executions.activityForLease cfg.sessionID lease = .ok (activity, execution)
  deliverable : canDeliverChildInbox activity execution
  named : cfg.inboxIDs activity.inputJSON = some requestIDs ∧ requestIDs.Nodup
  written : deliverChildInboxRows run (execution.agentRunID.getD UUID.nil) activity execution
    requestIDs s = .ok s'

theorem Tables.deliverChildExecutionMessages_ok
    (h : deliverChildExecutionMessages cfg s run lease requestIDs = .ok s') :
    ∃ activity execution, DeliveredChildBy cfg s run lease requestIDs activity execution s' := by
  obtain ⟨⟨activity, execution⟩, hfd, h⟩ := of_bind h
  obtain ⟨_, hdab, h⟩ := of_bind h
  obtain ⟨_, hnm, h⟩ := of_bind h
  exact ⟨activity, execution, hfd, checkDelivery_ok hdab, validateInboxDeliveryIDs_ok hnm, h⟩

end Inbox

/-! ## Stop and creation -/

section Stop
variable {s : Tables}

theorem Tables.cancel_ok (h : cancel cfg s active = .ok s') :
    ∃ changed executions, Store.changeExecutions .pause executionUserStopReason
        (.reason executionUserStopReason)
        (s.executions.executions.filter (·.sessionID == cfg.sessionID)) s.executions
        = .ok (changed, executions) ∧
      s' = { s with stopRevision := s.stopRevision + 1
                    executions := executions }.requestCancel active := by
  obtain ⟨t, ht, h⟩ := of_bind h
  obtain ⟨_, ht⟩ := of_check ht
  cases ht
  obtain ⟨⟨changed, t⟩, ht, h⟩ := of_bind h
  obtain ⟨⟨changed, executions⟩, hpau, ht⟩ := of_bind ht
  cases ht
  cases h
  exact ⟨_, executions, hpau, rfl⟩

theorem Tables.writes_requestCancel (s : Tables) (active : Option ActiveTurn) :
    Writes s (s.requestCancel active) := by
  cases active with
  | none => exact .refl
  | some active =>
    refine .single (.updateTurn active.turnID _ fun t => ?_)
    split <;> exact ⟨rfl, rfl⟩

theorem Tables.bindDeferredExecution_ok
    (h : bindDeferredExecution cfg s answers target inboxID = .ok s') :
    s' = s ∨ ∃ message source e executions, message ∈ s.inbox ∧
      (message.state = .deferred ∧ target.id ≠ message.executionID) ∧
      s.executions.findExecution cfg.sessionID message.executionID = .ok source ∧
      s.executions.appendExecutionEvent source .inboxForwarded (.handoff message.id target.id)
        = .ok (e, executions) ∧
      s' = { s.updateInbox message.id fun r =>
               { r with state := .forwarded, forwardedExecutionID := some target.id } with
             executions := executions } := by
  unfold bindDeferredExecution at h
  split at h
  · cases h; exact .inl rfl
  split at h
  · cases h
  rename_i message hmsg
  split at h
  · split at h
    · cases h; exact .inl rfl
    · cases h
  obtain ⟨_, htgt, h⟩ := of_bind h
  obtain ⟨_, hhandoff, h⟩ := of_bind h
  obtain ⟨source, hsrc, h⟩ := of_bind h
  obtain ⟨_, _, h⟩ := of_bind h
  obtain ⟨_, _, h⟩ := of_bind h
  obtain ⟨⟨e, executions⟩, he, h⟩ := of_bind h
  cases h
  obtain ⟨hst, hhandoff⟩ := of_check hhandoff
  obtain ⟨hoth, htgt⟩ := of_check htgt
  exact .inr ⟨message, source, e, executions, List.mem_of_find?_eq_some hmsg,
    ⟨not_not.1 (not_or.1 hst).1, (not_or.1 (not_or.1 hoth).2).1⟩, hsrc, he, rfl⟩

/-- The id is new, and a root is the only one of its turn. -/
structure Insertable (s : Tables) (created : Execution) : Prop where
  id : ∀ e ∈ s.executions.executions, e.id ≠ created.id
  root : created.kind = .root → ∀ e ∈ s.executions.executions, e.kind = .root →
    e.rootTurnID ≠ created.rootTurnID

theorem Tables.insertExecution_ok (h : s.insertExecution created = .ok s') :
    Insertable s created ∧ s' = { s with executions := { s.executions with
      executions := s.executions.executions ++ [created] } } := by
  obtain ⟨hnone, h⟩ := of_check h
  cases h
  have hkeys := List.any_eq_false.1 (Bool.eq_false_of_not_eq_true hnone)
  refine ⟨⟨fun e he hid => hkeys e he ?_, fun hroot e he hkind hturn => hkeys e he ?_⟩, rfl⟩
  · simp [hid]
  · simp [hroot, hkind, hturn]

theorem Tables.recordInitialExecutionPause_ok (h : s.recordInitialExecutionPause execution = .ok s')
    : s' = s ∨ ∃ e executions,
      s.executions.appendExecutionEvent execution .executionPaused (.reason execution.pauseReason)
        = .ok (e, executions) ∧ s' = { s with executions := executions } := by
  rw [recordInitialExecutionPause] at h
  split at h
  · cases h; exact .inl rfl
  · obtain ⟨⟨e, executions⟩, he, h⟩ := of_bind h
    cases h
    exact .inr ⟨e, executions, he, rfl⟩

theorem Tables.recordExecutionCreation_ok (h : s.recordExecutionCreation created = .ok s') :
    ∃ e executions,
      s.executions.appendExecutionEvent created .executionCreated .empty = .ok (e, executions) ∧
      (s' = { s with executions := executions } ∨ ∃ e' executions',
        executions.appendExecutionEvent e .executionPaused (.reason e.pauseReason)
          = .ok (e', executions') ∧ s' = { s with executions := executions' }) := by
  obtain ⟨⟨e, executions⟩, he, h⟩ := of_bind h
  refine ⟨e, executions, he, ?_⟩
  rcases recordInitialExecutionPause_ok h with rfl | ⟨e', executions', he', rfl⟩
  · exact .inl rfl
  · exact .inr ⟨e', executions', he', rfl⟩

/-- What `CreateExecution` does: it answers with the saved row or inserts one, and may hand a
deferred message over. -/
theorem Tables.createExecution_ok (h : createExecution cfg s answers input = .ok s') :
    (∃ existing, s.executions.findExecution cfg.sessionID input.id = .ok existing ∧
      bindDeferredExecution cfg s answers existing input.deferredInboxID = .ok s') ∨
    ∃ created t u, executionRecord cfg s answers input = .ok created ∧
      s.insertExecution created = .ok t ∧
      bindDeferredExecution cfg t answers created input.deferredInboxID = .ok u ∧
      u.recordExecutionCreation created = .ok s' := by
  obtain ⟨_, _, h⟩ := of_bind h
  split at h
  next existing hex =>
    split at h
    · exact .inl ⟨existing, hex, h⟩
    · cases h
  · obtain ⟨created, hcr, h⟩ := of_bind h
    obtain ⟨t, ht, h⟩ := of_bind h
    obtain ⟨u, hu, h⟩ := of_bind h
    exact .inr ⟨created, t, u, hcr, ht, hu, h⟩

end Stop

/-! ## Completion -/

section Completion
variable {cfg : Config} {s : Tables} {active : Option ActiveTurn}

theorem Tables.completionWrite_ok
    (h : completionWrite cfg s active execution child activityID input newID = .ok s') :
    s' = s ∨
    (∃ compaction, input.compaction = some compaction ∧ execution.kind = .root ∧
      saveActivityCompaction cfg s activityID compaction = .ok s') ∨
    (∃ leaseID, input.compaction = none ∧
      (input.rootProjection.map (·.holder.leaseID) = some leaseID ∨ input.rootProjection = none ∧
        leaseID = ((input.finish.bind (·.rootHolder)).map (·.leaseID)).getD UUID.nil) ∧
      hasLease active ⟨leaseID, execution.rootTurnID⟩ ∧ Writes s s') := by
  rw [completionWrite] at h
  split at h
  next compaction hcomp =>
    split at h
    · obtain ⟨_, _, h⟩ := of_bind h
      cases h
      exact .inl rfl
    next hkind =>
      refine .inr (.inl ⟨compaction, hcomp, ?_, h⟩)
      cases hroot : execution.kind with
      | root => rfl
      | child => exact absurd hroot hkind
  next projection hnone hproj =>
    obtain ⟨hheld, h⟩ := of_require h
    exact .inr (.inr ⟨_, hnone, .inl (hproj ▸ rfl), hheld, writes_appendTranscript h⟩)
  next hnone hproj _ =>
    obtain ⟨hheld, h⟩ := of_require h
    exact .inr (.inr ⟨_, hnone, .inr ⟨hproj, rfl⟩, hheld, writes_finalizeTurn h⟩)
  · cases h; exact .inl rfl

/-- What a completion found, asked and wrote. -/
structure CompletionOf (cfg : Config) (s : Tables) (active : Option ActiveTurn)
    (outside : CompletionAnswers) (lease : ActivityLease)
    (input : CompleteActivityInput) (newID : Nat → UUID) (before : ExecutionActivity)
    (execution : Execution) (after : ExecutionActivity) (write : Except Err Tables)
    (executions : Store) : Prop where
  found : s.executions.activityForLease cfg.sessionID lease = .ok (before, execution)
  asked : write =
    completionWrite cfg s active execution outside.compaction lease.id input newID
  completed : s.executions.completeExecutionActivity cfg.toConfig
    (completionAnswers cfg s outside execution.id input write) cfg.sessionID lease
    (input.request cfg) = .ok (after, executions)

theorem Tables.completeExecutionActivity_ok
    (h : completeExecutionActivity cfg s active outside lease input newID = .ok (after, s')) :
    ∃ before execution write executions,
      CompletionOf cfg s active outside lease input newID before execution after write executions ∧
      (s' = { s with executions := executions } ∨ ∃ written, write = .ok written ∧
        before.state ≠ .completed ∧ s' = { written with executions := executions }) := by
  obtain ⟨u, hval, h⟩ := of_bind h
  obtain ⟨⟨before, execution⟩, hfd, h⟩ := of_bind h
  obtain ⟨⟨after', executions⟩, hcmp, h⟩ := of_bind h
  cases h
  refine ⟨before, execution, _, executions, ⟨hfd, rfl, bind_eq_ok.2 ⟨u, hval, hcmp⟩⟩, ?_⟩
  unfold applyCompletion
  split
  · exact .inl rfl
  next written hwr =>
    split
    · exact .inl rfl
    next hopen =>
      exact .inr ⟨written, hwr, fun hbef => hopen (.inl hbef), rfl⟩

end Completion

end Peen.Sessions
