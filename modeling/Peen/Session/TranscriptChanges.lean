import Peen.Session.Calls

/-!
# What a call changes in the transcript

Every call of the session store changes the turns and their messages by a sequence of single changes
(`Change`): a turn is opened, taken up again or written to, or the transcript is left alone.
-/

namespace Peen.Sessions

open Tables Relation Executions

/-- Turns, messages and compactions are as they were. -/
structure SameTranscript (s s' : Tables) : Prop where
  turns : s'.turns = s.turns
  messages : s'.messages = s.messages
  messageCount : s'.messageCount = s.messageCount
  compactions : s'.compactions = s.compactions

/-- A single change of the transcript. -/
inductive Change (s : Tables) : Tables → Prop
  | aside (s' : Tables) (same : SameTranscript s s') : Change s s'
  | openTurn (turn : Turn) (fresh : ∀ t ∈ s.turns, t.id ≠ turn.id) :
      Change s { s with turns := s.turns ++ [turn] }
  | resumeTurn (turnID : UUID) (f : Turn → Turn) (keeps : ∀ t, (f t).id = t.id) :
      Change s (s.updateTurn turnID f)
  | write (s' : Tables) (written : Write s s') : Change s s'

abbrev Changes : Tables → Tables → Prop := ReflTransGen Change

section Changes
theorem Writes.changes (h : Writes s s') : Changes s s' :=
  ReflTransGen.mono (fun _ t ht => Change.write t ht) _ _ h

theorem SameTranscript.changes (h : SameTranscript s s') : Changes s s' := .single (.aside s' h)

theorem SameTranscript.of_others (revision : Nat) (worker : Option WorkerGeneration)
    (turnLeases : List ExecutionTurnLease) (inbox : List ExecutionInboxMessage)
    (agentRunMessages : List AgentRunMessage) (executions : Store) :
    SameTranscript s ⟨s.messageCount, revision, worker, s.turns, s.messages, s.compactions,
      turnLeases, inbox, agentRunMessages, executions⟩ :=
  ⟨rfl, rfl, rfl, rfl⟩

theorem Tables.changes_admitTurn (h : admitTurn cfg s turnID input newID = .ok s') :
    Changes s s' := by
  obtain ⟨_, hfr, h⟩ := admitTurn_ok h
  exact .trans (.single (.openTurn _ hfr)) h.changes

theorem Restored.changes
    (h : Restored cfg s active executionID input newLeaseID execution turn lease s') :
    Changes s s' := by
  rcases h.written with ⟨rfl, _⟩ | ⟨leases, e, executions, _, _, rfl⟩
  · exact .refl
  · obtain ⟨t, ht, _, heq⟩ := restoreRootTurnRow_eq cfg
      { s with turnLeases := leases, executions := executions } turn input.workerGenerationID
    rw [heq]
    exact .trans (SameTranscript.changes (.of_others _ _ _ _ _ _))
      (.trans ht.changes (.single (.resumeTurn _ _ fun _ => rfl)))

theorem Aside.same (h : Aside s s') : SameTranscript s s' := by
  obtain ⟨_, _, _, rfl⟩ := h.tables
  exact .of_others _ _ _ _ _ _

end Changes

/-! ## Steps -/

/-- A completion stored a compaction. -/
structure StoresCompaction (cfg : Config) (w : World) (lease : ActivityLease)
    (compaction : CompactionInput) (w' : World) : Prop where
  root : ∃ activity execution,
    w.tables.executions.activityForLease cfg.sessionID lease = .ok (activity, execution) ∧
    execution.kind = .root
  stored : ∃ t executions,
    saveActivityCompaction cfg w.tables lease.id compaction = .ok t ∧
    w'.tables = { t with executions := executions }

section Steps
variable {w : World}

theorem changes_complete
    (hs : completeExecutionActivity cfg w.tables w.active answers lease input newID =
      .ok (after, s)) :
    Changes w.tables s ∨ ∃ compaction, input.compaction = some compaction ∧
      StoresCompaction cfg w lease compaction { w.commit s [] with active := active } := by
  obtain ⟨before, execution, write, executions, hof, hs⟩ := completeExecutionActivity_ok hs
  rcases hs with rfl | ⟨written, rfl, _, rfl⟩
  · exact .inl (SameTranscript.changes (.of_others _ _ _ _ _ _))
  · rcases completionWrite_ok hof.asked.symm with rfl | ⟨compaction, hc, hroot, hsv⟩ |
      ⟨leaseID, _, _, _, hwr⟩
    · exact .inl (SameTranscript.changes (.of_others _ _ _ _ _ _))
    · exact .inr ⟨compaction, hc, ⟨before, execution, hof.found, hroot⟩, written, executions,
        hsv, rfl⟩
    · exact .inl (.trans hwr.changes (SameTranscript.changes (.of_others _ _ _ _ _ _)))

/-- **A step changes the transcript by single changes, or stores a compaction.** -/
theorem act_changes (h : act cfg w a = .ok w') :
    Changes w.tables w'.tables ∨ ∃ answers lease input newID compaction,
      a = .complete answers lease input newID ∧ input.compaction = some compaction ∧
      StoresCompaction cfg w lease compaction w' := by
  cases act_acted h with
  | complete hs =>
    rcases changes_complete hs with h | ⟨compaction, hc, h⟩
    · exact .inl h
    · exact .inr ⟨_, _, _, _, compaction, rfl, hc, h⟩
  | reserve | abandon | release => exact .inl .refl
  | worker => exact .inl (SameTranscript.changes (.of_others _ _ _ _ _ _))
  | admitted hs => exact .inl (changes_admitTurn hs)
  | write _ hwr | recover hwr => exact .inl hwr.changes
  | restore hs => exact .inl hs.changes
  | acquire _ hs =>
    rcases hs.written with ⟨turn, _, _, rfl⟩ | ⟨_, hadm⟩
    · exact .inl (.single (.resumeTurn _ _ fun _ => rfl))
    · exact .inl (changes_admitTurn hadm)
  | cancel hs =>
    exact .inl (.trans (SameTranscript.changes (.of_others _ _ _ _ _ _))
      (writes_requestCancel _ w.active).changes)
  | deliver hs =>
    obtain ⟨messages, t, ht, hs⟩ := hs.written
    exact .inl (.trans (aside_deliverInboxRows ht).1.same.changes
      (writes_appendTranscript hs).changes)
  | aside _ haside => exact .inl haside.same.changes
  | executions => exact .inl (SameTranscript.changes (.of_others _ _ _ _ _ _))


theorem step_eq_some (h : step cfg w a = some w') : w.presents a ∧ act cfg w a = .ok w' := by
  obtain ⟨hpr, h⟩ := of_guard h
  refine ⟨hpr, ?_⟩
  cases hact : act cfg w a with
  | error e => rw [hact] at h; cases h
  | ok v => rw [hact] at h; cases h; rfl

end Steps

end Peen.Sessions
