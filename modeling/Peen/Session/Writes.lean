import Peen.Session.SessionRuns

/-!
# What the transactions of a session write

One statement per transaction that says what it found and what it wrote, for the proofs that follow:
they use these and do not open the transactions again.
-/

namespace Peen.Sessions

open Tables List
open Relation (ReflTransGen)
open Executions

/-! ## Single writes -/

/-- Messages with the sequences after `n`. -/
def Numbered : Int → List Message → Prop
  | _, [] => True
  | n, m :: messages => m.sequence = n + 1 ∧ Numbered (n + 1) messages

/-- A row that was rewritten in place: its identity, its place and its compaction stay. -/
structure SameRow (m m' : Message) : Prop where
  id : m'.id = m.id
  turnID : m'.turnID = m.turnID
  sequence : m'.sequence = m.sequence
  compactionID : m'.compactionID = m.compactionID

/-- Rows a turn may get next. -/
structure Appendable (s : Tables) (turnID : UUID) (rows : List Message) : Prop where
  turn : ∃ t ∈ s.turns, t.id = turnID
  numbered : Numbered s.messageCount rows
  turnIDs : ∀ row ∈ rows, row.turnID = turnID
  unassigned : ∀ row ∈ rows, row.compactionID = none
  ids : (rows.map (·.id)).Nodup
  fresh : ∀ row ∈ rows, ∀ m ∈ s.messages, m.id ≠ row.id

/-- A single write to the turns that are there and to their messages. -/
inductive Write (s : Tables) : Tables → Prop
  | updateTurn (turnID : UUID) (f : Turn → Turn)
      (keeps : ∀ t, (f t).id = t.id ∧ (f t).stopRevision = t.stopRevision) :
      Write s (s.updateTurn turnID f)
  | append (turnID : UUID) (rows : List Message) (appendable : Appendable s turnID rows) :
      Write s { s with messages := s.messages ++ rows
                       messageCount := s.messageCount + rows.length }
  | rewrite (f : Message → Message) (same : ∀ m, SameRow m (f m)) :
      Write s { s with messages := s.messages.map f }

/-- A sequence of single writes. -/
abbrev Writes : Tables → Tables → Prop := ReflTransGen Write

/-- The tables beside the turns and their messages are the same. -/
structure SameOthers (s s' : Tables) : Prop where
  stopRevision : s'.stopRevision = s.stopRevision
  worker : s'.worker = s.worker
  compactions : s'.compactions = s.compactions
  turnLeases : s'.turnLeases = s.turnLeases
  inbox : s'.inbox = s.inbox
  agentRunMessages : s'.agentRunMessages = s.agentRunMessages
  executions : s'.executions = s.executions

/-- The turns with the revisions they were admitted under. -/
def Tables.admissions (s : Tables) : List (UUID × Nat) := s.turns.map fun t => (t.id, t.stopRevision)

theorem SameOthers.refl (s : Tables) : SameOthers s s := ⟨rfl, rfl, rfl, rfl, rfl, rfl, rfl⟩

theorem SameOthers.trans (h : SameOthers s t) (h' : SameOthers t u) :
    SameOthers s u :=
  ⟨h'.1.trans h.1, h'.2.trans h.2, h'.3.trans h.3, h'.4.trans h.4, h'.5.trans h.5, h'.6.trans h.6,
    h'.7.trans h.7⟩

theorem SameRow.refl (m : Message) : SameRow m m := ⟨rfl, rfl, rfl, rfl⟩

theorem Tables.admissions_updateTurn (s : Tables) (turnID : UUID)
    (keeps : ∀ t, (f t).id = t.id ∧ (f t).stopRevision = t.stopRevision) :
    (s.updateTurn turnID f).admissions = s.admissions := by
  show (s.turns.map _).map _ = _
  rw [map_map]
  refine map_congr_left fun t _ => ?_
  show (fun t : Turn => (t.id, t.stopRevision)) (if t.id == turnID then f t else t) = _
  split
  · exact Prod.ext (keeps t).1 (keeps t).2
  · rfl

/-- A write stays within turns and messages. -/
theorem Write.others (h : Write s s') : SameOthers s s' := by
  cases h <;> exact ⟨rfl, rfl, rfl, rfl, rfl, rfl, rfl⟩

theorem Write.admissions (h : Write s s') : s'.admissions = s.admissions := by
  cases h with
  | updateTurn turnID f keeps => exact s.admissions_updateTurn turnID keeps
  | append | rewrite => rfl

/-- So does a sequence of writes. -/
theorem Writes.others (h : Writes s s') : SameOthers s s' := by
  induction h with
  | refl => exact .refl s
  | tail _ h ih => exact ih.trans h.others

/-- No write changes an admission. -/
theorem Writes.admissions (h : Writes s s') : s'.admissions = s.admissions := by
  induction h with
  | refl => rfl
  | tail _ h ih => exact h.admissions.trans ih

/-! ## Turns and their transcript -/

variable {turn : Turn} {newID : Nat → UUID} {input : StartTurnInput}

section Transcript
variable {cfg : Config} {s : Tables} {turnID : UUID}

theorem Tables.mem_of_turn? (h : s.turn? turnID = some turn) :
    turn ∈ s.turns ∧ turn.id = turnID :=
  ⟨mem_of_find?_eq_some h, by simpa using find?_some h⟩

/-- The turn that is found is stored and runs. -/
theorem Tables.mem_of_findRunningTurn (h : s.findRunningTurn turnID = .ok turn) :
    turn ∈ s.turns ∧ turn.id = turnID ∧ turn.state = .running := by
  rw [findRunningTurn] at h
  split at h
  · cases h
  next found =>
    cases h
    have hp := find?_some found
    simp only [Bool.and_eq_true, beq_iff_eq] at hp
    exact ⟨mem_of_find?_eq_some found, hp.1, hp.2⟩

/-- New rows are numbered, of the turn, and in no compaction. -/
theorem newMessages_ok {n : Int} (h : newMessages cfg turnID newID n inputs = .ok rows) :
    Numbered n rows ∧ ∀ row ∈ rows, row.turnID = turnID ∧ row.compactionID = none := by
  induction inputs generalizing newID n rows with
  | nil =>
    cases h
    exact ⟨trivial, nofun⟩
  | cons input inputs ih =>
    obtain ⟨_, _, h⟩ := of_bind h
    obtain ⟨rest, hrest, h⟩ := of_bind h
    cases h
    obtain ⟨hnum, hrows⟩ := ih hrest
    refine ⟨⟨rfl, hnum⟩, fun row hrow => ?_⟩
    rcases mem_cons.1 hrow with rfl | hrow
    · exact ⟨rfl, rfl⟩
    · exact hrows row hrow

namespace Tables

/-- An insert found every key free. -/
theorem createMessages_ok (h : s.createMessages rows = .ok s') :
    s' = { s with messages := s.messages ++ rows } ∧ (rows.map (·.id)).Nodup ∧
      ∀ row ∈ rows, ∀ m ∈ s.messages, m.id ≠ row.id ∧ m.sequence ≠ row.sequence := by
  obtain ⟨hkeys, h⟩ := of_require h
  cases h
  exact ⟨rfl, hkeys⟩

/-- What is appended, where the turn is there. -/
theorem appendMessages_ok (h : appendMessages cfg s turnID newID inputs = .ok s') :
    ∃ rows, newMessages cfg turnID newID s.messageCount inputs = .ok rows ∧
      ((∃ t ∈ s.turns, t.id = turnID) → Appendable s turnID rows) ∧
      s' = { s with messages := s.messages ++ rows
                    messageCount := s.messageCount + rows.length } := by
  obtain ⟨rows, hrows, h⟩ := of_bind h
  obtain ⟨t, ht, h⟩ := of_bind h
  obtain ⟨rfl, hids, hkeys⟩ := createMessages_ok ht
  obtain ⟨hnum, hrow⟩ := newMessages_ok hrows
  cases h
  exact ⟨rows, hrows, fun hturn => ⟨hturn, hnum, fun row hr => (hrow row hr).1,
    fun row hr => (hrow row hr).2, hids, fun row hr m hm => (hkeys row hr m hm).1⟩, rfl⟩

/-- What is appended to a running turn. -/
theorem appendTranscript_ok (h : appendTranscript cfg s turnID newID inputs = .ok s') :
    ∃ rows, newMessages cfg turnID newID s.messageCount inputs = .ok rows ∧
      Appendable s turnID rows ∧
      s' = { s with messages := s.messages ++ rows
                    messageCount := s.messageCount + rows.length } := by
  obtain ⟨turn, hturn, h⟩ := of_bind h
  obtain ⟨hmem, hid, _⟩ := mem_of_findRunningTurn hturn
  obtain ⟨rows, hrows, happ, hs⟩ := appendMessages_ok h
  exact ⟨rows, hrows, happ ⟨turn, hmem, hid⟩, hs⟩

theorem writes_appendMessages (hturn : ∃ t ∈ s.turns, t.id = turnID)
    (h : appendMessages cfg s turnID newID inputs = .ok s') : Writes s s' := by
  obtain ⟨rows, _, happ, rfl⟩ := appendMessages_ok h
  exact .single (.append turnID rows (happ hturn))

theorem writes_appendTranscript
    (h : appendTranscript cfg s turnID newID inputs = .ok s') : Writes s s' := by
  obtain ⟨rows, _, hrows, rfl⟩ := appendTranscript_ok h
  exact .single (.append turnID rows hrows)

theorem createTurn_ok (h : s.createTurn turn = .ok s') :
    s' = { s with turns := s.turns ++ [turn] } ∧ ∀ t ∈ s.turns, t.id ≠ turn.id := by
  obtain ⟨hnone, h⟩ := of_check h
  cases h
  refine ⟨rfl, fun t ht hid => hnone ?_⟩
  exact any_eq_true.2 ⟨t, ht, by simpa using hid⟩

def withTurn (s : Tables) (turnID : UUID) (input : StartTurnInput) : Tables :=
  { s with turns := s.turns ++ [newTurn turnID input s.stopRevision] }

/-- An admission found the revision and a new id, and only wrote. -/
theorem admitTurn_ok (h : admitTurn cfg s turnID input newID = .ok s') :
    validateStopRevision input.expectedStopRevision s.stopRevision = .ok () ∧
      (∀ t ∈ s.turns, t.id ≠ turnID) ∧ Writes (s.withTurn turnID input) s' := by
  obtain ⟨revision, hrev, h⟩ := of_bind h
  obtain ⟨_, hval, hrev⟩ := of_bind hrev
  cases hrev
  obtain ⟨t, ht, h⟩ := of_bind h
  obtain ⟨rfl, hfr⟩ := createTurn_ok ht
  exact ⟨hval, hfr, writes_appendTranscript h⟩

theorem writes_markIncomplete (s : Tables) (turnID : UUID) (p : Message → Bool) :
    Writes s (s.markIncomplete turnID p) := by
  refine .single (.rewrite _ fun m => ?_)
  split
  · exact ⟨rfl, rfl, rfl, rfl⟩
  · exact .refl m

theorem mem_updateTurn {id : UUID} (h : ∃ t ∈ s.turns, t.id = id) (turnID : UUID)
    (f : Turn → Turn) (hf : ∀ t, (f t).id = t.id) :
    ∃ t ∈ (s.updateTurn turnID f).turns, t.id = id := by
  obtain ⟨t, ht, rfl⟩ := h
  refine ⟨_, mem_map_of_mem ht, ?_⟩
  split
  · exact hf t
  · rfl

theorem writes_appendTurnEndMessage {newID : UUID} {state : TurnState} {text : String}
    (hturn : ∃ t ∈ s.turns, t.id = turnID)
    (h : appendTurnEndMessage cfg s turnID newID state text = .ok s') : Writes s s' := by
  rw [appendTurnEndMessage] at h
  split at h
  · cases h; exact .refl
  · exact writes_appendMessages hturn h

theorem writes_setState (s : Tables) (turnID : UUID) (state : TurnState) :
    Writes s (s.updateTurn turnID fun t => { t with state := state }) :=
  .single (.updateTurn turnID _ fun _ => ⟨rfl, rfl⟩)

/-- The end of a turn is a sequence of writes. -/
theorem writes_finishTurn {newID : UUID} {input : FinalizeTurnInput}
    (h : finishTurn cfg s turnID newID input = .ok s') : Writes s s' := by
  rw [finishTurn] at h
  split at h
  · cases h
  next turn hturn =>
    obtain ⟨hmem, hid, _⟩ := mem_of_findRunningTurn hturn
    refine .trans (s.writes_setState turnID input.state) ?_
    refine writes_appendTurnEndMessage ?_ h
    exact mem_updateTurn ⟨turn, hmem, hid⟩ turnID _ fun _ => rfl

/-- So is its end with a final result. -/
theorem writes_finalizeTurn {input : FinalizeTurnInput}
    (h : finalizeTurn cfg s turnID input newID = .ok s') : Writes s s' := by
  obtain ⟨s1, h1, h⟩ := of_bind h
  obtain ⟨s2, h2, h⟩ := of_bind h
  cases h
  refine .trans (writes_appendTranscript h1) (.trans (writes_finishTurn h2) ?_)
  rw [markUnfinishedMessages]
  split
  · exact .refl
  · exact writes_markIncomplete _ _ _

/-- And its end without a lease. -/
theorem writes_endRunningTurn {newID : UUID} {ending : TurnEnd} {ended : Bool}
    (h : endRunningTurn cfg s turnID newID ending = .ok (ended, s')) : Writes s s' := by
  rw [endRunningTurn] at h
  split at h
  · cases h; exact .refl
  next turn hturn =>
    obtain ⟨hmem, hid, _⟩ := mem_of_findRunningTurn hturn
    obtain ⟨t, ht, h⟩ := of_bind h
    cases h
    refine .trans (s.writes_setState turnID ending.state) ?_
    refine .trans (writes_markIncomplete _ turnID fun _ => true) ?_
    refine writes_appendTurnEndMessage ?_ ht
    exact mem_updateTurn ⟨turn, hmem, hid⟩ turnID _ fun _ => rfl

/-- And the recovery of all turns. -/
theorem writes_interruptTurns {turns : List Turn}
    (h : interruptTurns cfg newID endMessage turns s = .ok s') : Writes s s' := by
  induction turns generalizing s with
  | nil => cases h; exact .refl
  | cons turn turns ih =>
    obtain ⟨⟨_, t⟩, ht, h⟩ := of_bind h
    exact (writes_endRunningTurn ht).trans (ih h)

theorem writes_markTurnEndMessagesResumed (s : Tables) (turnID : UUID) :
    Writes s (s.markTurnEndMessagesResumed turnID) := by
  refine .single (.rewrite _ fun m => ?_)
  split
  · exact ⟨rfl, rfl, rfl, rfl⟩
  · exact .refl m

end Tables

section
variable (cfg : Config) (s : Tables) (turn : Turn) (generationID : UUID)

def resumedTurn (revision : Nat) (generationID : UUID) (turn : Turn) : Turn :=
  { turn with state := .running, stopRevision := revision, cancelRequested := false,
              workerGenerationID := workerLeaseReference cfg generationID }

/-- Taking a turn up again is a sequence of writes and an update. -/
theorem Tables.restoreRootTurnRow_eq : ∃ t, Writes s t ∧ t.turns = s.turns ∧
    restoreRootTurnRow cfg s turn generationID =
    t.updateTurn turn.id (resumedTurn cfg s.stopRevision generationID) := by
  rw [restoreRootTurnRow]
  split
  · exact ⟨_, s.writes_markTurnEndMessagesResumed turn.id, rfl, rfl⟩
  · exact ⟨s, .refl, rfl, rfl⟩

/-- Taking a turn up again leaves the other tables alone. -/
theorem Tables.others_restoreRootTurnRow :
    SameOthers s (restoreRootTurnRow cfg s turn generationID) := by
  obtain ⟨t, ht, _, heq⟩ := restoreRootTurnRow_eq cfg s turn generationID
  rw [heq]
  exact ht.others.trans ⟨rfl, rfl, rfl, rfl, rfl, rfl, rfl⟩

end

end Transcript

/-! ## Holders -/

section Holders
variable {cfg : Config} {s s' : Tables} {active : Option ActiveTurn} {lease : Lease}

variable {execution : Execution}

theorem holdLease_ok (h : holdLease active lease = .ok u) : hasLease active lease := by
  obtain ⟨_, h⟩ := of_require h
  assumption

/-- The lease is the active one. -/
theorem hasLease_iff : hasLease active lease = true ↔
    lease.id ≠ UUID.nil ∧ active = some ⟨lease.turnID, lease.id⟩ := by
  simp [hasLease]

/-- A holder replaces the row of its execution, or is new. -/
theorem Tables.saveTurnLease_ok (h : s.saveTurnLease row = .ok s') :
    ∃ leases, s' = { s with turnLeases := leases } ∧
      (((s.turnLease? row.executionID).isSome ∧
          leases = s.turnLeases.map fun r => if r.executionID == row.executionID then row else r) ∨
        (s.turnLease? row.executionID = none ∧ leases = s.turnLeases ++ [row])) := by
  obtain ⟨_, h⟩ := of_check h
  split at h
  next hsome =>
    cases h
    exact ⟨_, rfl, .inl ⟨hsome, rfl⟩⟩
  next hsome =>
    cases h
    exact ⟨_, rfl, .inr ⟨Option.not_isSome_iff_eq_none.1 hsome, rfl⟩⟩

/-- A root that works can be restored. -/
theorem validateExecutionTurnRestore_ok (h : validateExecutionTurnRestore execution = .ok u) :
    execution.kind = .root ∧
      execution.state ≠ .paused ∧ isExecutionTerminal execution.state = false := by
  obtain ⟨hroot, h⟩ := of_check h
  obtain ⟨hst, h⟩ := of_check h
  obtain ⟨hpau, hlive⟩ := not_or.1 hst
  exact ⟨not_not.1 hroot, hpau, Bool.eq_false_of_not_eq_true hlive⟩

/-- The turn of the root has not completed or failed. -/
theorem Tables.findExecutionRootTurn_ok (h : s.findExecutionRootTurn execution = .ok turn) :
    s.turn? execution.rootTurnID = some turn ∧ turn.state ≠ .completed ∧ turn.state ≠ .failed := by
  rw [findExecutionRootTurn] at h
  split at h
  · cases h
  next hrow =>
    obtain ⟨hend, h⟩ := of_check h
    cases h
    exact ⟨hrow, not_or.1 hend⟩

/-- No other turn is active. -/
theorem validateRestoreSession_ok (h : validateRestoreSession active turn = .ok u)
    (ha : active = some a) : a.turnID = turn.id := by
  subst ha
  obtain ⟨hbusy, h⟩ := of_check h
  simpa using hbusy

/-- What is written when a restore gives out a lease that is not held already. -/
def HolderWritten (cfg : Config) (s : Tables) (input : RestoreExecutionTurnInput)
    (execution : Execution) (turn : Turn) (lease : Lease) (s' : Tables) : Prop :=
  ∃ leases e executions,
    s.saveTurnLease (holderRow execution lease input) = .ok { s with turnLeases := leases } ∧
    s.executions.appendExecutionEvent execution .turnRestored
      (.turnHolder lease.id input.ownerGenerationID
        (holderRow execution lease input).workerGenerationID) = .ok (e, executions) ∧
    s' = restoreRootTurnRow cfg { s with turnLeases := leases, executions := executions }
      turn input.workerGenerationID

/-- What a restore found, chose and wrote. -/
structure Restored (cfg : Config) (s : Tables) (active : Option ActiveTurn) (executionID : UUID)
    (input : RestoreExecutionTurnInput) (newLeaseID : UUID) (execution : Execution) (turn : Turn)
    (lease : Lease) (s' : Tables) : Prop where
  found : s.executions.findExecution cfg.sessionID executionID = .ok execution
  restorable : execution.kind = .root ∧ execution.state ≠ .paused ∧
    isExecutionTerminal execution.state = false
  rootTurn : s.turn? execution.rootTurnID = some turn ∧ turn.state ≠ .completed ∧
    turn.state ≠ .failed
  session : ∀ a, active = some a → a.turnID = turn.id
  chosen : chooseExecutionTurnLease cfg turn (s.turnLease? execution.id) active input newLeaseID
    = .ok lease
  written : (s' = s ∧ executionTurnLeaseMatches (s.turnLease? execution.id) turn lease ∧
    hasLease active lease) ∨ HolderWritten cfg s input execution turn lease s'

theorem Tables.saveExecutionTurnLease_ok {input : RestoreExecutionTurnInput}
    (h : s.saveExecutionTurnLease execution lease input = .ok s') : ∃ leases e executions,
      s.saveTurnLease (holderRow execution lease input) = .ok { s with turnLeases := leases } ∧
      s.executions.appendExecutionEvent execution .turnRestored
        (.turnHolder lease.id input.ownerGenerationID
          (holderRow execution lease input).workerGenerationID) = .ok (e, executions) ∧
      s' = { s with turnLeases := leases, executions := executions } := by
  obtain ⟨t, ht, h⟩ := of_bind h
  obtain ⟨⟨e, executions⟩, he, h⟩ := of_bind h
  cases h
  obtain ⟨leases, rfl, _⟩ := saveTurnLease_ok ht
  exact ⟨leases, e, executions, ht, he, rfl⟩

/-- A restore, opened once for all proofs. -/
theorem Tables.restoreExecutionTurn_ok {executionID : UUID} {input : RestoreExecutionTurnInput}
    {newLeaseID : UUID}
    (h : restoreExecutionTurn cfg s active executionID input newLeaseID = .ok (lease, s')) :
    ∃ execution turn,
      Restored cfg s active executionID input newLeaseID execution turn lease s' := by
  obtain ⟨_, _, h⟩ := of_bind h
  obtain ⟨execution, hfd, h⟩ := of_bind h
  obtain ⟨_, hrestore, h⟩ := of_bind h
  obtain ⟨_, _, h⟩ := of_bind h
  obtain ⟨_, _, h⟩ := of_bind h
  obtain ⟨turn, hturn, h⟩ := of_bind h
  obtain ⟨_, hse, h⟩ := of_bind h
  obtain ⟨chosen, hcho, h⟩ := of_bind h
  have hrestore := validateExecutionTurnRestore_ok hrestore
  have hturn := findExecutionRootTurn_ok hturn
  have hse := fun a => validateRestoreSession_ok (a := a) hse
  split at h
  next hheld =>
    cases h
    have hheld := Bool.and_eq_true_iff.1 hheld
    exact ⟨execution, turn, hfd, hrestore, hturn, hse, hcho, .inl ⟨rfl, hheld⟩⟩
  · obtain ⟨t, ht, h⟩ := of_bind h
    cases h
    obtain ⟨leases, e, executions, hsave, he, rfl⟩ := saveExecutionTurnLease_ok ht
    exact ⟨execution, turn, hfd, hrestore, hturn, hse, hcho,
      .inr ⟨leases, e, executions, hsave, he, rfl⟩⟩

/-- What an admission of a deferred message found and wrote. -/
structure AcquiredDeferred (cfg : Config) (s : Tables) (active : Option ActiveTurn)
    (turnID : UUID) (inboxID : UUID) (input : StartTurnInput) (newLeaseID : UUID)
    (newID : Nat → UUID) (message : ExecutionInboxMessage) (s' : Tables) : Prop where
  found : s.inbox.find? (·.id == inboxID) = some message
  admissible : validateStopRevision input.expectedStopRevision s.stopRevision = .ok () ∧
    message.stopRevision = s.stopRevision
  session : ∀ a, active = some a → a.turnID = turnID
  written : (∃ turn, s.turn? turnID = some turn ∧
      (turn.state = .running ∨ turn.state = .interrupted) ∧
      s' = s.updateTurn turnID fun t =>
        { t with state := .running, workerGenerationID := input.workerGenerationID }) ∨
    (s.turn? turnID = none ∧ admitTurn cfg s turnID input newID = .ok s')

namespace Tables

/-- Request and row have the session's revision. -/
theorem validateDeferredStopRevision_ok
    (h : s.validateDeferredStopRevision expected message = .ok u) :
    validateStopRevision expected s.stopRevision = .ok () ∧
      message.stopRevision = s.stopRevision := by
  obtain ⟨revision, hrev, h⟩ := of_bind h
  obtain ⟨_, hval, hrev⟩ := of_bind hrev
  cases hrev
  obtain ⟨hrev, h⟩ := of_check h
  exact ⟨hval, not_not.1 hrev⟩

theorem validateDeferredTurn_ok (h : validateDeferredTurn active turn input = .ok u) :
    turn.state = .running ∨ turn.state = .interrupted := by
  obtain ⟨_, h⟩ := of_check h
  obtain ⟨hst, h⟩ := of_check h
  have hst := (not_or.1 hst).2
  by_cases hrun : turn.state = .running
  · exact .inl hrun
  · exact .inr (not_not.1 fun hne => hst ⟨hrun, hne⟩)

/-- An admission of a deferred message, opened once. -/
theorem acquireDeferredExecutionTurn_ok
    (h : acquireDeferredExecutionTurn cfg s active boundary inboxID input newLeaseID newID =
      .ok (lease, s')) :
    lease = deferredLease active (deferredTurnID cfg inboxID) newLeaseID ∧
      ∃ message, AcquiredDeferred cfg s active (deferredTurnID cfg inboxID) inboxID input
        newLeaseID newID message s' := by
  obtain ⟨_, h⟩ := of_check h
  obtain ⟨hbusy, h⟩ := of_check h
  obtain ⟨t, ht, h⟩ := of_bind h
  cases h
  obtain ⟨_, hval, ht⟩ := of_bind ht
  rw [validateDeferredTurnInput] at hval
  split at hval
  · cases hval
  rename_i message hmsg
  obtain ⟨_, hrev, _⟩ := of_bind hval
  have hrev := validateDeferredStopRevision_ok hrev
  have hse : ∀ a, active = some a → a.turnID = deferredTurnID cfg inboxID := by
    intro a ha
    subst ha
    simpa using hbusy
  refine ⟨rfl, message, hmsg, hrev, hse, ?_⟩
  split at ht
  next turn hturn =>
    obtain ⟨_, hst, ht⟩ := of_bind ht
    cases ht
    rw [(mem_of_turn? hturn).2]
    exact .inl ⟨turn, hturn, validateDeferredTurn_ok hst, rfl⟩
  next hnone =>
    exact .inr ⟨hnone, ht⟩

end Tables

end Holders

end Peen.Sessions
