import Peen.Session.Coherence

/-!
# No message falls out of the history

`CompletedHistory` returns the messages of ended turns behind the active compaction.
-/

namespace Peen.Sessions

open Tables List Relation Lts
open World (new)

/-- Every message of an ended turn is returned by `CompletedHistory`, or names a compaction of the
active chain. -/
def NothingLost (s : Tables) : Prop :=
  ∀ m ∈ s.messages, s.hasEnded m → m ∈ s.completedHistory.messages ∨
    ∃ c, s.InActiveChain c ∧ m.compactionID = some c.id

/-- Every message the active compaction reaches names a compaction. -/
def Covered (s : Tables) : Prop :=
  ∀ m ∈ s.messages, m.sequence ≤ s.watermark → m.compactionID ≠ none

/-- The messages a compaction passes have been summarised, or their turns have ended. -/
def Passes (s : Tables) (c : CompactionInput) : Prop :=
  ∀ m ∈ s.messages, m.sequence ≤ c.toSequence → m.compactionID = none → s.hasEnded m

/-- A step that stores a root compaction passes no message of a running turn. -/
def Settled (cfg : Config) (w : World) : Action → Prop
  | .complete _ lease input _ => ∀ c activity execution s, input.compaction = some c →
      w.tables.executions.activityForLease cfg.sessionID lease = .ok (activity, execution) →
      execution.kind = .root → saveActivityCompaction cfg w.tables lease.id c = .ok s →
      Passes w.tables c
  | _ => True

section Coverage
variable {s s' : Tables}

theorem Coherent.nothingLost (h : Coherent s) (hcov : Covered s) : NothingLost s := by
  intro m hm hend
  by_cases hbey : s.watermark < m.sequence
  · exact .inl (mem_completedHistory.2 ⟨hm, hend, hbey⟩)
  · cases hid : m.compactionID with
    | none => exact absurd hid (hcov m hm (Int.not_lt.1 hbey))
    | some id =>
      obtain ⟨c, hc, rfl, _⟩ := h.assigned m hm id hid
      exact .inr ⟨c, h.inActiveChain hc, rfl⟩

theorem watermark_congr (h : s'.compactions = s.compactions) : s'.watermark = s.watermark := by
  rw [watermark, watermark, activeHead_congr h]

theorem Coherent.watermark_le (h : Coherent s) : s.watermark ≤ s.messageCount := by
  rw [watermark, h.count]
  cases hhead : s.activeHead with
  | none => exact Int.natCast_nonneg _
  | some head =>
    obtain ⟨m, hm, _, hseq⟩ := (h.ends head (h.activeHead_mem hhead)).2
    have hbd := (h.numbered.bounds hm).2
    show head.toSequence ≤ _
    omega

theorem Covered.change (hs : Coherent s) (hcov : Covered s) (h : Change s s') : Covered s' := by
  cases h with
  | aside _ same =>
    intro m hm hle
    rw [watermark_congr same.compactions] at hle
    exact hcov m (same.messages ▸ hm) hle
  | openTurn | resumeTurn => exact hcov
  | write _ written =>
    cases written with
    | updateTurn => exact hcov
    | append turnID rows appendable =>
      intro m hm hle
      have hwatermark := hs.watermark_le
      rcases mem_append.1 hm with hm | hm
      · exact hcov m hm hle
      · have hbd := (appendable.numbered.bounds hm).1
        have hle : m.sequence ≤ s.watermark := hle
        omega
    | rewrite f same =>
      intro m hm hle
      obtain ⟨m', hm', rfl⟩ := mem_map.1 hm
      rw [(same m').sequence] at hle
      rw [(same m').compactionID]
      exact hcov m' hm' hle

end Coverage

section Compactions
variable {s' : Tables}

theorem Coherent.watermark_withCompaction (h : Coherent (Tables.withCompaction cfg s input)) :
    (Tables.withCompaction cfg s input).watermark = input.toSequence := by
  have hhead : (Tables.withCompaction cfg s input).activeHead = some (compactionRecord cfg input) := by
    rw [h.activeHead_eq]
    show (s.compactions ++ [compactionRecord cfg input]).reverse.head? = _
    rw [reverse_append]
    rfl
  rw [watermark, hhead]
  rfl

theorem Covered.withCompaction (hs : Coherent s) (hcov : Covered s) (hchk : Checked s input)
    (hfr : ∀ c ∈ s.compactions, c.id ≠ input.id) (hpasses : Passes s input) :
    Covered (Tables.withCompaction cfg s input) := by
  intro m hm hle
  have hsto : Coherent (Tables.withCompaction cfg s input) := hs.withCompaction hchk hfr
  rw [hsto.watermark_withCompaction] at hle
  obtain ⟨m, hrow, rfl⟩ := mem_withCompaction hm
  rw [(assignedRow_same _ _ m).2.2] at hle
  rw [assignedRow]
  split
  · simp
  next hkept =>
    intro hnone
    -- an uncovered row is one of an ended turn behind the old watermark, so it was assigned
    have hend := hpasses m hrow hle hnone
    have hbey : s.watermark < m.sequence := by
      by_contra hbehind
      exact hcov m hrow (Int.not_lt.1 hbehind) hnone
    have hdir : m ∈ s.directRows input := mem_directRows.2
      ⟨hrow, hend, hchk.skips m hrow hend hbey, hchk.last ▸ hle⟩
    refine hkept ?_
    rw [hnone, beq_self_eq_true, Bool.and_true, contains_iff_mem]
    exact mem_map_of_mem hdir

end Compactions

theorem not_nothingLost {s : Tables} (hm : m ∈ s.messages) (hend : s.hasEnded m)
    (hle : m.sequence ≤ s.watermark) (hnone : m.compactionID = none) : ¬ NothingLost s := by
  intro h
  rcases h m hm hend with hret | ⟨c, _, hid⟩
  · exact absurd (mem_completedHistory.1 hret).2.2 (Int.not_lt.2 hle)
  · rw [hnone] at hid
    cases hid

/-! ## Runs -/

section Runs
variable {w : World}

theorem Coherent.changes (hs : Coherent s) (h : Changes s s') : Coherent s' := by
  induction h with
  | refl => exact hs
  | tail _ hchg ih => exact ih.change hchg

theorem Covered.changes (hs : Coherent s) (hcov : Covered s) (h : Changes s s') : Covered s' := by
  induction h with
  | refl => exact hcov
  | tail hch hchg ih => exact ih.change (hs.changes hch) hchg

theorem StoresCompaction.tables (h : StoresCompaction cfg w lease c w') : ∃ normalized executions,
      normalized = directBounds { c with id := lease.id } ∧ Checked w.tables normalized ∧
      (∀ c ∈ w.tables.compactions, c.id ≠ normalized.id) ∧
      SameTranscript (withCompaction cfg w.tables normalized) w'.tables ∧
      w'.tables = { withCompaction cfg w.tables normalized with executions := executions } := by
  obtain ⟨_, t, executions, hsv, htables⟩ := h
  obtain ⟨normalized, rfl, hchk, _, hfr, rfl⟩ := saveActivityCompaction_ok hsv
  refine ⟨_, executions, rfl, hchk, hfr, ?_, htables⟩
  rw [htables]
  exact .of_others _ _ _ _ _ _

theorem coherent_step (hs : Coherent w.tables) (h : step cfg w a = some w') :
    Coherent w'.tables := by
  rcases act_changes (step_eq_some h).2 with hch | ⟨_, lease, _, _, c, _, _, hsts⟩
  · exact hs.changes hch
  · obtain ⟨normalized, executions, _, hchk, hfr, hsame, _⟩ := hsts.tables
    exact (hs.withCompaction hchk hfr).same hsame

theorem covered_step (hs : Coherent w.tables) (hcov : Covered w.tables)
    (hset : Settled cfg w a) (h : step cfg w a = some w') : Covered w'.tables := by
  rcases act_changes (step_eq_some h).2 with hch |
    ⟨answers, lease, input, newID, c, rfl, hc, hsts⟩
  · exact hcov.changes hs hch
  · have hsts' := hsts
    obtain ⟨⟨activity, execution, hfd, hkind⟩, t, executions, hsv, _⟩ := hsts'
    have hpasses := hset c activity execution t hc hfd hkind hsv
    obtain ⟨normalized, executions, rfl, hchk, hfr, hsame, _⟩ := hsts.tables
    have hkept : Covered (withCompaction cfg w.tables _) :=
      hcov.withCompaction hs hchk hfr hpasses
    exact hkept.change (hs.withCompaction hchk hfr) (.aside _ hsame)

end Runs

/-- **The transcript stays coherent.** In every run of the calls of `Action`, where compactions are those
that root compaction activities completed with, the rows are numbered from one on and counted, each is
of a turn, and one that names a compaction is within its range; and the compactions are one chain, of
which the newest is the active one. `CreateCompaction`, which checks no chain, is none of the calls. -/
theorem transcript_coherent (cfg : Config) (actions : List Action) :
    Always (step cfg) (fun w =>
      Numbered 0 w.tables.messages ∧ w.tables.messageCount = w.tables.messages.length ∧
      (∀ m ∈ w.tables.messages, (∃ t ∈ w.tables.turns, t.id = m.turnID) ∧
        ∀ id, m.compactionID = some id →
          ∃ c ∈ w.tables.compactions, c.id = id ∧ c.fromSequence ≤ m.sequence ∧
            m.sequence ≤ c.toSequence) ∧
      Chain w.tables.compactions.reverse ∧
      w.tables.activeHead = w.tables.compactions.reverse.head?) new actions := by
  have hcoherent : Always (step cfg) (fun w => Coherent w.tables) new actions :=
    .of_step (fun _ _ _ hs h => coherent_step hs h) coherent_empty
  refine hcoherent.mono fun w hs => ?_
  exact ⟨hs.numbered, hs.count, fun m hm => ⟨hs.owned m hm, hs.assigned m hm⟩, hs.chain,
    hs.activeHead_eq⟩

/-- **Nothing is lost.** In every run whose compactions pass no message of a running turn, every
message of an ended turn is returned by `CompletedHistory` or names a compaction of the active
chain. -/
theorem nothingLost_of_settled (cfg : Config) (actions : List Action)
    (h : Along (step cfg) (Settled cfg) new actions) :
    Always (step cfg) (fun w => NothingLost w.tables) new actions := by
  have hstep : ∀ w a w', Coherent w.tables ∧ Covered w.tables → Settled cfg w a →
      step cfg w a = some w' → Coherent w'.tables ∧ Covered w'.tables :=
    fun w a w' hs hsettled hw => ⟨coherent_step hs.1 hw, covered_step hs.1 hs.2 hsettled hw⟩
  have hnew : Coherent new.tables ∧ Covered new.tables :=
    ⟨coherent_empty, nofun⟩
  exact (always_of_along hstep hnew h).mono fun w hs => hs.1.nothingLost hs.2

/-- The compaction of a completion passes no message of a running turn; decidable. -/
def passesNothing (w : World) : Action → Bool
  | .complete _ _ input _ => input.compaction.all fun c => w.tables.messages.all fun m =>
      c.toSequence < m.sequence || m.compactionID != none || w.tables.hasEnded m
  | _ => true

theorem settled_of_passesNothing (cfg : Config) (w : World) (a : Action)
    (h : passesNothing w a = true) : Settled cfg w a := by
  cases a with
  | complete answers lease input newID =>
    intro c _ _ _ hc _ _ _ m hm hle hnone
    have hall : (input.compaction.all fun c => w.tables.messages.all fun m =>
      c.toSequence < m.sequence || m.compactionID != none || w.tables.hasEnded m) = true := h
    rw [hc] at hall
    have hm := all_eq_true.1 hall m hm
    rw [hnone, decide_eq_false (Int.not_lt.2 hle)] at hm
    exact hm
  | _ => trivial

def plainSummary (messageID : UUID) (sequence : Int) : CompactionInput :=
  ⟨UUID.nil, messageID, messageID, sequence, sequence, 0, 0, "summary", 1, 0, 0, "model", "hash",
    none⟩

/-- A turn is paused, and another one is opened, completed and left; then the first one is taken up
again. -/
def pausedTurn : List Action :=
  [.reserveTurn 10 100, .admitTurn ⟨100, 10⟩ (plainTurn 11 "first") (fun _ => 1001),
    .createExecution agreedCreation (plainRoot 30 10 "first"),
    .restoreExecutionTurn 30 (plainRestore 0 0) 101, .pause 30 "later", .releaseTurn ⟨100, 10⟩,
    .reserveTurn 20 200, .admitTurn ⟨200, 20⟩ (plainTurn 12 "second") (fun _ => 1002),
    .finalizeTurn ⟨200, 20⟩ ⟨.completed, [.plain .assistant "done"], ""⟩ (fun i => 1003 + i),
    .releaseTurn ⟨200, 20⟩, .resume 30, .restoreExecutionTurn 30 (plainRestore 2 100) 102]

/-- The compaction activity of the turn 10 stores this compaction, and then the turn ends. -/
def compactedThenEnded (leaseID : UUID) (compaction : CompactionInput) : List Action :=
  [.claim ⟨40, .ok ()⟩ 30 7 (plainActivity "compact" .compaction Executions.emptyActivityJSON),
    .complete agreedCompletion ⟨40, 7, 1⟩ (plainCompletion (some compaction)) (fun _ => 0),
    .finalizeTurn ⟨leaseID, 10⟩ ⟨.completed, [], ""⟩ (fun _ => 0)]

/-- A turn ends, and the compaction activity of the next one summarises a message of it. -/
def compactedAfterEnd : List Action :=
  [.reserveTurn 20 200, .admitTurn ⟨200, 20⟩ (plainTurn 12 "first") (fun _ => 1001),
    .finalizeTurn ⟨200, 20⟩ ⟨.completed, [.plain .assistant "done"], ""⟩ (fun i => 1002 + i),
    .releaseTurn ⟨200, 20⟩, .reserveTurn 10 100,
    .admitTurn ⟨100, 10⟩ (plainTurn 11 "second") (fun _ => 1005),
    .createExecution agreedCreation (plainRoot 30 10 "second"),
    .restoreExecutionTurn 30 (plainRestore 0 0) 102] ++
    compactedThenEnded 100 (plainSummary 1001 1)

/-- A completed turn is summarised in part while another one runs: nothing is lost, and the
compaction is stored. -/
theorem nothingLost_compactedAfterEnd :
    Along (step plainConfig) (Settled plainConfig) new compactedAfterEnd ∧
    (exec (step plainConfig) new compactedAfterEnd).map (·.tables.compactions.length)
      = some 1 ∧
    Always (step plainConfig) (fun w => NothingLost w.tables) new compactedAfterEnd := by
  have hpasses : Along (step plainConfig) (fun w a => passesNothing w a = true) new
      compactedAfterEnd := by decide +kernel
  have hsettled := hpasses.mono (settled_of_passesNothing plainConfig)
  exact ⟨hsettled, by decide +kernel, nothingLost_of_settled plainConfig _ hsettled⟩

/-- Some message of an ended turn lies behind the active compaction and names none. -/
def losesMessage (w : World) : Bool :=
  w.tables.messages.any fun m => w.tables.hasEnded m && (m.sequence ≤ w.tables.watermark &&
    m.compactionID == none)

theorem not_nothingLost_of_losesMessage (w : World) (h : losesMessage w = true) :
    ¬ NothingLost w.tables := by
  obtain ⟨m, hm, hlost⟩ := any_eq_true.1 h
  simp only [Bool.and_eq_true, decide_eq_true_iff, beq_iff_eq] at hlost
  exact not_nothingLost hm hlost.1 hlost.2.1 hlost.2.2

/-- The second turn is summarised while the first one is paused: its message has the sequence 1, the
compaction reaches 2, and nobody returns or covers it once the turn ends. -/
theorem message_lost_after_pause : ¬ Always (step plainConfig) (fun w => NothingLost w.tables) new
      (pausedTurn ++ compactedThenEnded 102 (plainSummary 1002 2)) :=
  not_always_of_exec (f := losesMessage) not_nothingLost_of_losesMessage (by decide +kernel)

end Peen.Sessions
