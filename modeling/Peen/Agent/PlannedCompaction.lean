import Peen.Agent.Compaction
import Peen.Session.CompactionAcceptance

/-!
# The compactions a planner chooses

The planner reads `CompletedHistory`, builds a plan from it and names, for any coverable prefix of
the plan's units, the row that replaces the prefix (`compactionInput`).
-/

namespace Peen.Sessions

open Lts List Tables Executions
open Option (map_eq_some_iff)

def sessionCompactionHead (active : Compaction) : CompactionHead :=
  ⟨active.id, active.fromMessageID, active.fromSequence, active.sourceMessageCount,
    active.summaryTokenCount⟩

/-! ## The rows of a plan -/

def rowKey (m : Message) : UUID × Int := (m.id, m.sequence)

variable {id : UUID} {sequence : Int}

theorem pairAssistantCalls_key {m reply : Message} {names names' : CallNames} {taken : Nat}
    (h : pairAssistantCalls m rest names = .ok (reply, taken, names')) :
    rowKey reply = rowKey m := by
  rw [pairAssistantCalls] at h
  split at h
  · cases h
  cases h
  split <;> rfl

theorem pairFrom_keys {names : CallNames} {skip : Nat} {rows paired : List Message}
    (h : pairFrom names skip rows = .ok paired) : paired.map rowKey = rows.map rowKey := by
  induction rows generalizing names skip paired with
  | nil =>
    cases h
    rfl
  | cons m rows ih =>
    have kept : ∀ {names : CallNames} {skip : Nat} {m' : Message},
        (m' :: ·) <$> pairFrom names skip rows = .ok paired → rowKey m' = rowKey m →
        paired.map rowKey = (m :: rows).map rowKey := by
      intro names skip m' h hkey
      cases hrest : pairFrom names skip rows with
      | error e => rw [hrest] at h; cases h
      | ok rest =>
        rw [hrest] at h
        cases h
        rw [map_cons, map_cons, hkey, ih hrest]
    rw [pairFrom.eq_def] at h
    dsimp only at h
    split at h
    · exact kept h rfl
    · split at h
      · exact kept h rfl
      · split at h
        · cases h
        next hpd =>
          exact kept h (pairAssistantCalls_key hpd)
      · exact kept h rfl
      · exact kept h rfl
      · exact kept h rfl

/-- **Pairing tool results keeps the identity of every row.** -/
theorem pairToolResults_keys {rows paired : List Message} (h : pairToolResults rows = .ok paired) :
    paired.map rowKey = rows.map rowKey :=
  pairFrom_keys h

theorem holds_rows {units : List ReconstructionUnit} {blocks : List (Message × List Message)}
    (h : Forall₂ ReconstructionUnit.Holds units blocks) :
    (blocks.flatMap blockRows).head?.map rowKey =
        units.head?.map (fun u => (u.fromMessageID, u.fromSequence)) ∧
      (blocks.flatMap blockRows).getLast?.map rowKey =
        units.getLast?.map (fun u => (u.toMessageID, u.toSequence)) ∧
      (blocks.flatMap blockRows).length = messageCount units := by
  induction h with
  | nil => exact ⟨rfl, rfl, rfl⟩
  | @cons unit block units blocks hunit hrest ih =>
    obtain ⟨-, role, -, rfl⟩ := hunit
    obtain ⟨_, hlast, hct⟩ := ih
    refine ⟨rfl, ?_, ?_⟩
    · have hblock : (blockRows block).getLast? = some (block.2.getLastD block.1) := by
        rw [blockRows, getLast?_cons, getLastD_eq_getLast?]
      rw [flatMap_cons, getLast?_append, getLast?_cons, hblock]
      cases hlat : (blocks.flatMap blockRows).getLast? with
      | none =>
        rw [hlat] at hlast
        rw [Option.map_eq_none_iff.1 hlast.symm]
        rfl
      | some m =>
        rw [hlat] at hlast
        obtain ⟨u, hu, hkey⟩ := map_eq_some_iff.1 hlast.symm
        rw [hu]
        exact congrArg some hkey.symm
    · rw [flatMap_cons, length_append, hct]
      rfl

theorem filter_le_last {covered : List Message} {last : Message}
    (hsrt : (covered ++ rest).Pairwise fun a b => a.sequence < b.sequence)
    (hlast : covered.getLast? = some last) :
    (covered ++ rest).filter (fun m => decide (m.sequence ≤ last.sequence)) = covered := by
  obtain ⟨hcov, _, hbetween⟩ := pairwise_append.1 hsrt
  obtain ⟨before, rfl⟩ := getLast?_eq_some_iff.1 hlast
  obtain ⟨_, _, hbef⟩ := pairwise_append.1 hcov
  have hkept : (before ++ [last]).filter (fun m => decide (m.sequence ≤ last.sequence)) =
      before ++ [last] := by
    refine filter_eq_self.2 fun m hm => decide_eq_true ?_
    rcases mem_snoc.1 hm with hm | hm
    · exact Int.le_of_lt (hbef m hm last mem_cons_self)
    · rw [hm]
  have hdrop : rest.filter (fun m => decide (m.sequence ≤ last.sequence)) = [] := by
    refine filter_eq_nil_iff.2 fun m hm hle => ?_
    have hlt := hbetween last mem_concat_self m hm
    have hle := of_decide_eq_true hle
    omega
  rw [filter_append, hkept, hdrop, append_nil]

section Planned
variable {s : Tables} {c : Compactor} {units : Nat}

theorem Coherent.completedHistory_eq (hs : Coherent s) : s.completedHistory.messages =
    s.messages.filter fun m => s.hasEnded m && s.watermark < m.sequence := by
  rw [completedHistory_messages, completedHistoryAfter, hs.sortBySequence_filter]

theorem Coherent.pendingRows_eq (hs : Coherent s) {covered : List Message} {last : Message}
    (hhist : s.completedHistory.messages = covered ++ rest)
    (hlast : covered.getLast? = some last) : s.pendingRows last.sequence = covered := by
  rw [hs.completedHistory_eq] at hhist
  have hsrt : (covered ++ rest).Pairwise fun a b => a.sequence < b.sequence := by
    rw [← hhist]
    exact hs.numbered.pairwise.filter _
  have hpend : s.pendingRows last.sequence =
      (covered ++ rest).filter fun m => decide (m.sequence ≤ last.sequence) := by
    rw [← hhist, filter_filter, pendingRows]
    refine filter_congr fun m _ => ?_
    rw [Bool.and_comm (decide (m.sequence ≤ last.sequence)), Bool.and_assoc]
  rw [hpend, filter_le_last hsrt hlast]

theorem planned_rows (hplan : promptFromHistory systemPrompt s.completedHistory images =
      .ok (prompt, c.plan)) (units : Nat) :
    ∃ covered rest, s.completedHistory.messages = covered ++ rest ∧
      covered.head?.map rowKey =
        (c.plan.units.take units).head?.map (fun u => (u.fromMessageID, u.fromSequence)) ∧
      covered.getLast?.map rowKey =
        (c.plan.units.take units).getLast?.map (fun u => (u.toMessageID, u.toSequence)) ∧
      covered.length = c.plan.messageCount units := by
  obtain ⟨paired, hpd, h⟩ := of_bind hplan
  obtain ⟨_, _, h⟩ := of_bind h
  obtain ⟨plan, hbuilt, h⟩ := of_bind h
  cases h
  obtain ⟨blocks, rfl, hholds⟩ := buildReconstructionPlan_ok hbuilt
  obtain ⟨hhead, hlast, hct⟩ := holds_rows (forall₂_take units hholds)
  have hkeys := pairToolResults_keys hpd
  rw [← take_append_drop units blocks, flatMap_append, map_append] at hkeys
  obtain ⟨covered, rest, hhist, hcov, _⟩ := map_eq_append_iff.1 hkeys.symm
  refine ⟨covered, rest, hhist, ?_, ?_, ?_⟩
  · rw [← head?_map, hcov, head?_map, hhead]
  · rw [← getLast?_map, hcov, getLast?_map, hlast]
  · rw [← length_map, hcov, length_map, hct]
    rfl

/-- **The row the planner builds for a prefix summarises the rows the store finds pending.** -/
theorem planned_summarises (hs : Coherent s)
    (hplan : promptFromHistory systemPrompt s.completedHistory images = .ok (prompt, c.plan))
    (hact : c.active = s.completedHistory.compaction.map sessionCompactionHead)
    (hinp : c.compactionInput units text summary = some input) : Summarises s input := by
  obtain ⟨covered, rest, hhist, hhead, hlast, hct⟩ := planned_rows hplan units
  obtain ⟨first, hfst, hinp⟩ := Option.bind_eq_some_iff.1 hinp
  obtain ⟨last, hlastUnit, hinp⟩ := Option.bind_eq_some_iff.1 hinp
  rw [hfst] at hhead
  rw [hlastUnit] at hlast
  obtain ⟨row, hrow, hrowKey⟩ := map_eq_some_iff.1 hlast
  have hto : row.sequence = last.toSequence := (Prod.mk.inj hrowKey).2
  have hpend := hs.pendingRows_eq hhist hrow
  have hcomp : s.completedHistory.compaction = s.activeHead := by
    rw [completedHistory]
  rw [hcomp] at hact
  rw [hto] at hpend
  have hfirstRow : covered.head?.map (·.sequence) = some first.fromSequence := by
    obtain ⟨m, hm, hkey⟩ := map_eq_some_iff.1 hhead
    rw [hm]
    exact congrArg some (Prod.mk.inj hkey).2
  split at hinp
  next hnone =>
    cases hinp
    have hhead' : s.activeHead = none := by
      rw [hnone] at hact
      exact Option.map_eq_none_iff.1 hact.symm
    refine ⟨?_, ?_, rfl, ?_, ?_, .inr ⟨hhead', ?_⟩⟩
    · rw [hpend]; exact hfirstRow
    · rw [hpend]; exact hlast
    · rw [hhead']; rfl
    · rw [hhead', hpend, hct]; simp
    · rw [hpend]; exact hhead
  next active hsome =>
    cases hinp
    rw [hsome] at hact
    obtain ⟨head, hhead', rfl⟩ := map_eq_some_iff.1 hact.symm
    refine ⟨?_, ?_, rfl, ?_, ?_, .inl ?_⟩
    · rw [hpend]; exact hfirstRow
    · rw [hpend]; exact hlast
    · rw [hhead']; rfl
    · rw [hhead', hpend, hct]
      exact Int.add_comm _ _
    · rw [hhead']; rfl

end Planned

/-! ## From the read to the completion -/

/-- The pending rows up to a sequence have kept their ends and their number. -/
structure SamePending (s s' : Tables) (upTo : Int) : Prop where
  first : (s'.pendingRows upTo).head?.map (·.sequence) =
    (s.pendingRows upTo).head?.map (·.sequence)
  last : (s'.pendingRows upTo).getLast?.map (·.sequence) =
    (s.pendingRows upTo).getLast?.map (·.sequence)
  count : (s'.pendingRows upTo).length = (s.pendingRows upTo).length

theorem SamePending.refl (s : Tables) (upTo : Int) : SamePending s s upTo := ⟨rfl, rfl, rfl⟩

section Later
variable {s : Tables} {w : World}

theorem Coherent.eq_of_sequence (hs : Coherent s) {a b : Message} (ha : a ∈ s.messages)
    (hb : b ∈ s.messages) (h : a.sequence = b.sequence) : a = b := by
  have hnd : (s.messages.map (·.sequence)).Nodup :=
    pairwise_map.2 (hs.numbered.pairwise.imp fun hlt => Int.ne_of_lt hlt)
  exact inj_on_of_nodup_map hnd ha hb h

/-- A summary of the rows pending earlier is one of those pending now exactly if they have kept
their ends and their number. -/
theorem Summarises.later_iff (hs' : Coherent s') (h : Summarises s input)
    (hrows : ∀ {id sequence}, s.HasRow id sequence → s'.HasRow id sequence)
    (hcompactions : s'.compactions = s.compactions) :
    Summarises s' input ↔ SamePending s s' input.toSequence := by
  have hhead := activeHead_congr hcompactions
  have hlast : (s.pendingRows input.toSequence).getLast?.map (·.sequence) =
      some input.toSequence := by
    obtain ⟨m, hm, hkey⟩ := map_eq_some_iff.1 h.last
    rw [hm]
    exact congrArg some (Prod.mk.inj hkey).2
  refine ⟨fun h' => ⟨h'.first.trans h.first.symm, ?_, ?_⟩, fun hsame => ?_⟩
  · obtain ⟨m, hm, hkey⟩ := map_eq_some_iff.1 h'.last
    rw [hlast, hm]
    exact congrArg some (Prod.mk.inj hkey).2
  · have hct := h.count
    have hct' := h'.count
    rw [hhead] at hct'
    omega
  have same : ∀ {m : Message} {id : UUID} {sequence : Int}, m ∈ s'.pendingRows input.toSequence →
      m.sequence = sequence → s.HasRow id sequence → (m.id, m.sequence) = (id, sequence) := by
    intro m id sequence hm hseq hrow
    obtain ⟨m', hm', rfl, rfl⟩ := hrows hrow
    rw [hs'.eq_of_sequence (mem_pendingRows.1 hm).1 hm' hseq]
  refine ⟨hsame.first.trans h.first, ?_, h.direct, by rw [hhead]; exact h.supersedes, ?_, ?_⟩
  · obtain ⟨m, hm, hseq⟩ := map_eq_some_iff.1 (hsame.last.trans hlast)
    obtain ⟨row, hrow, hid⟩ := h.exists_last
    rw [hm]
    exact congrArg some (same (mem_of_getLast? hm) hseq ⟨row, (mem_pendingRows.1 hrow).1, hid⟩)
  · rw [hhead, hsame.count]
    exact h.count
  · rw [hhead]
    refine h.origin.imp_right fun horg => ⟨horg.1, ?_⟩
    obtain ⟨row, hrow, hkey⟩ := map_eq_some_iff.1 horg.2
    obtain ⟨hid, hseq⟩ := Prod.mk.inj hkey
    have hfst := hsame.first
    rw [hrow] at hfst
    obtain ⟨m, hm, hm'⟩ := map_eq_some_iff.1 hfst
    rw [hm]
    exact congrArg some (same (mem_of_mem_head? hm) (hm'.trans hseq)
      ⟨row, (mem_pendingRows.1 (mem_of_mem_head? hrow)).1, hid, hseq⟩)

theorem Tables.HasRow.change (h : s.HasRow id sequence) (hchg : Change s s') :
    s'.HasRow id sequence := by
  cases hchg with
  | aside _ same =>
    unfold HasRow at h ⊢
    rw [same.messages]
    exact h
  | openTurn | resumeTurn => exact h
  | write _ written =>
    cases written with
    | updateTurn => exact h
    | append => exact h.append
    | rewrite f same => exact h.map fun m => ⟨(same m).id, (same m).sequence⟩

theorem Tables.HasRow.changes (h : s.HasRow id sequence) (hch : Changes s s') :
    s'.HasRow id sequence := by
  induction hch with
  | refl => exact h
  | tail _ hchg ih => exact ih.change hchg

theorem hasRow_step {a : Action} (h : w.tables.HasRow id sequence) (hstep : step cfg w a = some w')
    : w'.tables.HasRow id sequence := by
  rcases act_changes (step_eq_some hstep).2 with hch | ⟨_, lease, _, _, c, _, _, hsts⟩
  · exact h.changes hch
  · obtain ⟨normalized, executions, _, _, _, hsame, _⟩ := hsts.tables
    exact h.withCompaction.change (.aside _ hsame)

end Later

/-- A planner read the history of the world `w` and built a row for a coverable prefix of its plan;
since then, up to the world `w'`, no compaction was stored. -/
structure Planned (cfg : Config) (w w' : World) (input : CompactionInput) : Prop where
  before : ∃ actions, exec (step cfg) World.new actions = some w
  since : ∃ actions, exec (step cfg) w actions = some w'
  stored : w'.tables.compactions = w.tables.compactions
  row : ∃ (c : Compactor) (systemPrompt : String) (images : ImageBytes) (prompt : Elelem.Prompt)
      (units : Nat) (text : String) (summary : CompactionSummary),
    promptFromHistory systemPrompt w.tables.completedHistory images = .ok (prompt, c.plan) ∧
    c.active = w.tables.completedHistory.compaction.map sessionCompactionHead ∧
    1 ≤ units ∧ units ≤ c.plan.coverableUnits ∧
    c.compactionInput units text summary = some input

section Runs
variable {w : World} {input : CompactionInput}

theorem coherent_recorded_of_exec {actions : List Action}
    (hs : Coherent w.tables ∧ Recorded w.tables) (h : exec (step cfg) w actions = some w') :
    Coherent w'.tables ∧ Recorded w'.tables := by
  have hrun : Always (step cfg) (fun w => Coherent w.tables ∧ Recorded w.tables) w actions :=
    Always.of_step (fun _ _ _ hs hw => ⟨coherent_step hs.1 hw, recorded_step hs.2 hw⟩) hs
  exact hrun.last h

theorem hasRow_of_exec {actions : List Action} (h : exec (step cfg) w actions = some w')
    (hrow : w.tables.HasRow id sequence) : w'.tables.HasRow id sequence := by
  have hrun : Always (step cfg) (fun w => w.tables.HasRow id sequence) w actions :=
    Always.of_step (fun _ _ _ hs hw => hasRow_step hs hw) hrow
  exact hrun.last h

end Runs

/-- **A planned compaction is accepted exactly if both of its ends lie in completed turns.** The row
a planner built for a coverable prefix of the completed history, with no compaction stored since and
its metadata in order, completes a root compaction activity exactly if the rows at its ends are
complete, and the rows pending up to its end have kept their ends and their number. -/
theorem planned_completes_iff (cfg : Config) (w w' : World) (input : CompactionInput)
    (hplanned : Planned cfg w w' input) (hdrawn : ∀ m ∈ w'.tables.messages, m.id ≠ UUID.nil)
    (lease : ActivityLease) (activity : ExecutionActivity) (execution : Execution)
    (output context : String)
    (hready : ReadyToCompact cfg w'.tables lease activity execution output context) (id : UUID)
    (hid : id = UUID.nil ∨ id = lease.id) (hmetadata : MetadataInOrder cfg { input with id := id })
    (outside : CompletionAnswers) (newID : Nat → UUID) :
    (∃ r, completeExecutionActivity cfg w'.tables w'.active outside lease
        (compactionCompletion output context { input with id := id }) newID = .ok r) ↔
      SamePending w.tables w'.tables input.toSequence ∧
        w'.tables.CompleteRow input.fromMessageID ∧ w'.tables.CompleteRow input.toMessageID := by
  obtain ⟨before, hbefore⟩ := hplanned.before
  obtain ⟨since, hsince⟩ := hplanned.since
  obtain ⟨c, systemPrompt, images, prompt, units, text, summary, hplan, hactive, _, _, hinput⟩ :=
    hplanned.row
  have hread := coherent_recorded_of_exec ⟨coherent_empty, recorded_empty⟩ hbefore
  obtain ⟨hs', hrecorded⟩ := coherent_recorded_of_exec hread hsince
  have hs := hread.1
  have hsummary := planned_summarises hs hplan hactive hinput
  obtain ⟨hfrom, hto⟩ := hsummary.ends hs
  have hends : input.fromMessageID ≠ UUID.nil ∧ input.toMessageID ≠ UUID.nil := by
    obtain ⟨m, hm, hm', _⟩ := hasRow_of_exec hsince hfrom
    obtain ⟨n, hn, hn', _⟩ := hasRow_of_exec hsince hto
    exact ⟨hm' ▸ hdrawn m hm, hn' ▸ hdrawn n hn⟩
  have hdirect : input.directFromSequence ≠ 0 ∧ input.directToSequence ≠ 0 := by
    have hpositive := hsummary.from_bounds hs
    have hordered := hsummary.first_le_last
    have hlast := hsummary.direct
    exact ⟨by omega, by omega⟩
  have hnamed : Summarises w'.tables { input with id := id } ↔ Summarises w'.tables input :=
    ⟨fun h => ⟨h.first, h.last, h.direct, h.supersedes, h.count, h.origin⟩,
      fun h => ⟨h.first, h.last, h.direct, h.supersedes, h.count, h.origin⟩⟩
  rw [hready.complete_iff, hs'.saved_iff hmetadata hid hends hdirect (hrecorded.fresh hready), hnamed,
    hsummary.later_iff hs' (hasRow_of_exec hsince) hplanned.stored]

/-! ## A failed turn at the start of the history -/

/-- A turn of two messages ends in a state, a second one completes, and the root execution of a third
one has claimed its compaction activity. -/
def compactingAfter (state : TurnState) : List Action :=
  [.reserveTurn 20 200, .admitTurn ⟨200, 20⟩ (plainTurn 12 "first") (fun _ => 1001),
    .finalizeTurn ⟨200, 20⟩ ⟨state, [.plain .assistant "answer"], ""⟩ (fun i => 1002 + i),
    .releaseTurn ⟨200, 20⟩, .reserveTurn 21 201,
    .admitTurn ⟨201, 21⟩ (plainTurn 13 "second") (fun _ => 1011),
    .finalizeTurn ⟨201, 21⟩ ⟨.completed, [.plain .assistant "done"], ""⟩ (fun i => 1012 + i),
    .releaseTurn ⟨201, 21⟩, .reserveTurn 10 100,
    .admitTurn ⟨100, 10⟩ (plainTurn 11 "third") (fun _ => 1021),
    .createExecution agreedCreation (plainRoot 30 10 "third"),
    .restoreExecutionTurn 30 (plainRestore 0 0) 102,
    .claim ⟨40, .ok ()⟩ 30 7 (plainActivity "compact" .compaction emptyActivityJSON)]

def compactingWorld (state : TurnState) : World :=
  (exec (step plainConfig) World.new (compactingAfter state)).getD World.new

def plainCompactor (w : World) : Compactor where
  plan := ((promptFromHistory "" w.tables.completedHistory fun _ => none).toOption.map (·.2)).getD
    ⟨0, false, []⟩
  active := w.tables.completedHistory.compaction.map sessionCompactionHead
  room := 0
  maxOutputTokens := 0
  promptHash := "hash"
  workspace := "/work"

/-- The row the compactor builds for the two messages of the first turn. -/
def firstTurnRow : CompactionInput :=
  ⟨UUID.nil, 1001, 1003, 1, 2, 1, 2, "summary", 2, 0, 0, "model", "hash", none⟩

def compactActivity : ExecutionActivity :=
  ⟨40, 1, 30, "compact", .compaction, .running, .retry, "compact", "\x7b\x7d", none, "\x7b\x7d", 1,
    some 7, "", .empty⟩

def thirdRoot : Execution :=
  ⟨30, 1, .root, .running, none, none, "", "/work", "\x7b\x7d", "", "", 4, 0, 10, "v1", "third"⟩

theorem planned_firstTurnRow (state : TurnState) (h : state = .completed ∨ state = .failed) :
    Planned plainConfig (compactingWorld state) (compactingWorld state) firstTurnRow ∧
      (∀ m ∈ (compactingWorld state).tables.messages, m.id ≠ UUID.nil) ∧
      ReadyToCompact plainConfig (compactingWorld state).tables ⟨40, 7, 1⟩ compactActivity thirdRoot
        emptyActivityJSON emptyActivityJSON := by
  have hrun : exec (step plainConfig) World.new (compactingAfter state) =
        some (compactingWorld state) ∧
      promptFromHistory "" (compactingWorld state).tables.completedHistory (fun _ => none) =
        .ok (((promptFromHistory "" (compactingWorld state).tables.completedHistory
          fun _ => none).toOption.map (·.1)).getD .new,
            (plainCompactor (compactingWorld state)).plan) ∧
      2 ≤ (plainCompactor (compactingWorld state)).plan.coverableUnits ∧
      (plainCompactor (compactingWorld state)).compactionInput 2 "summary" ⟨"summary", "model", 0, 0⟩
        = some firstTurnRow ∧
      (∀ m ∈ (compactingWorld state).tables.messages, m.id ≠ UUID.nil) ∧
      (compactingWorld state).tables.executions.activityForLease plainConfig.sessionID ⟨40, 7, 1⟩
        = .ok (compactActivity, thirdRoot) := by
    rcases h with rfl | rfl
    · decide +kernel
    · decide +kernel
  obtain ⟨hrun, hplan, hcov, hrow, hdrw, hfd⟩ := hrun
  refine ⟨⟨⟨_, hrun⟩, ⟨[], rfl⟩, rfl, ?_⟩, hdrw, ?_⟩
  · exact ⟨_, _, _, _, 2, _, _, hplan, rfl, by omega, hcov, hrow⟩
  · exact ⟨hfd, rfl, rfl, rfl, by decide, by decide, by decide +kernel⟩

theorem metadataInOrder_firstTurnRow : MetadataInOrder plainConfig firstTurnRow :=
  ⟨by decide +kernel, by decide +kernel, by decide +kernel, by decide, by decide +kernel⟩

/-- The first turn completed: the row is accepted. -/
theorem planned_completes_after_completed_turn :
    (compactingWorld .completed).tables.CompleteRow firstTurnRow.fromMessageID ∧
    (compactingWorld .completed).tables.CompleteRow firstTurnRow.toMessageID ∧
    ∃ r, completeExecutionActivity plainConfig (compactingWorld .completed).tables
      (compactingWorld .completed).active agreedCompletion ⟨40, 7, 1⟩
      (compactionCompletion emptyActivityJSON emptyActivityJSON firstTurnRow)
      (fun _ => 0) = .ok r := by
  obtain ⟨hplanned, hdrawn, hready⟩ := planned_firstTurnRow .completed (.inl rfl)
  have hfrom : (compactingWorld .completed).tables.CompleteRow firstTurnRow.fromMessageID := by
    unfold CompleteRow
    decide +kernel
  have hto : (compactingWorld .completed).tables.CompleteRow firstTurnRow.toMessageID := by
    unfold CompleteRow
    decide +kernel
  exact ⟨hfrom, hto, (planned_completes_iff plainConfig _ _ firstTurnRow hplanned hdrawn _ _ _ _ _
    hready UUID.nil (.inl rfl) metadataInOrder_firstTurnRow _ _).2 ⟨.refl _ _, hfrom, hto⟩⟩

/-- The first turn failed: the planner builds the same row, and its completion is refused. -/
theorem planned_refused_after_failed_turn :
    Planned plainConfig (compactingWorld .failed) (compactingWorld .failed) firstTurnRow ∧
    (∀ m ∈ (compactingWorld .failed).tables.messages, m.id ≠ UUID.nil) ∧
    ReadyToCompact plainConfig (compactingWorld .failed).tables ⟨40, 7, 1⟩ compactActivity thirdRoot
      emptyActivityJSON emptyActivityJSON ∧
    MetadataInOrder plainConfig firstTurnRow ∧
    completeExecutionActivity plainConfig (compactingWorld .failed).tables
      (compactingWorld .failed).active agreedCompletion ⟨40, 7, 1⟩
      (compactionCompletion emptyActivityJSON emptyActivityJSON firstTurnRow)
      (fun _ => 0) = .error ⟨.conflict, "compaction boundary is unfinished"⟩ := by
  obtain ⟨hplanned, hdrawn, hready⟩ := planned_firstTurnRow .failed (.inr rfl)
  exact ⟨hplanned, hdrawn, hready, metadataInOrder_firstTurnRow, by decide +kernel⟩

end Peen.Sessions
