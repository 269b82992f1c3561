import Peen.Session.CompactionRecords

/-!
# When a compaction is accepted

The store accepts a compaction exactly if it summarises the first pending rows, those of ended turns
behind the active compaction, and the rows at both of its ends are complete (`Coherent.saved_iff`).
-/

namespace Peen.Sessions

open Tables List Option Executions Prod

/-! ## Pending rows -/

/-- The rows of ended turns behind the active compaction, up to a sequence. -/
def Tables.pendingRows (s : Tables) (upTo : Int) : List Message :=
  s.messages.filter fun m => s.hasEnded m && (s.watermark < m.sequence && m.sequence ≤ upTo)

/-- The row at an end of a compaction is complete: it is not marked incomplete, and its turn has
completed. -/
def Tables.CompleteRow (s : Tables) (messageID : UUID) : Prop :=
  ∃ m ∈ s.messages, m.id = messageID ∧ m.incomplete = false ∧
    ∃ t ∈ s.turns, t.id = m.turnID ∧ t.state = .completed

/-- A compaction that summarises the pending rows up to its end. -/
structure Summarises (s : Tables) (input : CompactionInput) : Prop where
  first : (s.pendingRows input.toSequence).head?.map (·.sequence) = some input.directFromSequence
  last : (s.pendingRows input.toSequence).getLast?.map (fun m => (m.id, m.sequence)) =
    some (input.toMessageID, input.toSequence)
  direct : input.directToSequence = input.toSequence
  supersedes : input.supersedesCompactionID = s.activeHead.map (·.id)
  count : input.sourceMessageCount = (s.activeHead.map (·.sourceMessageCount)).getD 0 +
    (s.pendingRows input.toSequence).length
  origin : (s.activeHead.map fun head => (head.fromMessageID, head.fromSequence)) =
      some (input.fromMessageID, input.fromSequence) ∨
    s.activeHead = none ∧ (s.pendingRows input.toSequence).head?.map (fun m => (m.id, m.sequence)) =
      some (input.fromMessageID, input.fromSequence)

section Pending
variable {s : Tables} {upTo : Int}

theorem Tables.mem_pendingRows : m ∈ s.pendingRows upTo ↔ m ∈ s.messages ∧ s.hasEnded m ∧
    s.watermark < m.sequence ∧ m.sequence ≤ upTo := by
  rw [pendingRows, mem_filter, Bool.and_eq_true, Bool.and_eq_true, decide_eq_true_iff,
    decide_eq_true_iff]

section
variable (hs : Coherent s)
include hs

theorem Coherent.sortBySequence_filter (p : Message → Bool) :
    sortBySequence (s.messages.filter p) = s.messages.filter p := by
  have hsrt := (hs.numbered.pairwise.filter p).imp fun h => Int.le_of_lt h
  exact hsrt.insertionSort_eq

theorem Coherent.pairwise_pendingRows (upTo : Int) :
    (s.pendingRows upTo).Pairwise fun a b => a.sequence < b.sequence :=
  hs.numbered.pairwise.filter _

theorem Coherent.first_le {first : Int}
    (hfst : (s.pendingRows upTo).head?.map (·.sequence) = some first)
    (hm : m ∈ s.pendingRows upTo) : first ≤ m.sequence := by
  have hpairwise := hs.pairwise_pendingRows upTo
  cases hrows : s.pendingRows upTo with
  | nil => rw [hrows] at hm; cases hm
  | cons =>
    rw [hrows] at hfst hm hpairwise
    cases hfst
    rcases mem_cons.1 hm with rfl | hm
    · exact Int.le_refl _
    · exact Int.le_of_lt ((pairwise_cons.1 hpairwise).1 m hm)

theorem Coherent.unassigned (hm : m ∈ s.messages)
    (hbey : s.watermark < m.sequence) : m.compactionID = none := by
  cases hid : m.compactionID with
  | none => rfl
  | some id =>
    obtain ⟨c, hc, _, _, hle⟩ := hs.assigned m hm id hid
    have hreach := hs.toSequence_le hc
    omega

theorem Coherent.turn?_eq (ht : t ∈ s.turns) : s.turn? t.id = some t := by
  rw [turn?]
  cases hfind : s.turns.find? (·.id == t.id) with
  | none =>
    have hnone := find?_eq_none.1 hfind t ht
    exact absurd (beq_self_eq_true t.id) hnone
  | some t' =>
    have hid := find?_some hfind
    have hmem := mem_of_find?_eq_some hfind
    rw [inj_on_of_nodup_map hs.turnIDs hmem ht (beq_iff_eq.1 hid)]

theorem Coherent.find?_message (hm : m ∈ s.messages) :
    s.messages.find? (·.id == m.id) = some m := by
  cases hfind : s.messages.find? (·.id == m.id) with
  | none =>
    have hnone := find?_eq_none.1 hfind m hm
    exact absurd (beq_self_eq_true m.id) hnone
  | some m' =>
    have hid := find?_some hfind
    have hmem := mem_of_find?_eq_some hfind
    rw [inj_on_of_nodup_map hs.ids hmem hm (beq_iff_eq.1 hid)]

theorem Coherent.boundary_iff {sequence : Int} (hrow : s.HasRow messageID sequence) :
    s.validateCompactionBoundary messageID sequence = .ok () ↔ s.CompleteRow messageID := by
  obtain ⟨m, hm, rfl, rfl⟩ := hrow
  obtain ⟨t, ht, hturn⟩ := hs.owned m hm
  have hfd : s.turn? m.turnID = some t := hturn ▸ hs.turn?_eq ht
  rw [validateCompactionBoundary, hs.find?_message hm]
  dsimp only
  rw [if_neg (not_not.2 rfl), validateCompactionBoundaryTurn, hfd]
  dsimp only
  split
  next hunf =>
    refine ⟨fun h => (by cases h), fun h => ?_⟩
    obtain ⟨m', hm', hid, hcomp, t', ht', hturn', hst⟩ := h
    obtain rfl := inj_on_of_nodup_map hs.ids hm' hm hid
    obtain rfl := inj_on_of_nodup_map hs.turnIDs ht' ht (hturn'.trans hturn.symm)
    rcases hunf with hunf | hunf
    · exact absurd hst hunf
    · rw [hcomp] at hunf
      cases hunf
  next hfinished =>
    obtain ⟨hst, hcomp⟩ := not_or.1 hfinished
    refine ⟨fun _ => ?_, fun _ => rfl⟩
    exact ⟨m, hm, rfl, Bool.eq_false_of_not_eq_true hcomp, t, ht, hturn, not_not.1 hst⟩

end

end Pending

/-! ## The checks of the history -/

section Checks
variable {s : Tables} {input : CompactionInput}

section
variable (h : Summarises s input)
include h

theorem Summarises.exists_first : ∃ row rows, s.pendingRows input.toSequence = row :: rows ∧
    row.sequence = input.directFromSequence := by
  have hfst := h.first
  cases hrows : s.pendingRows input.toSequence with
  | nil => rw [hrows] at hfst; cases hfst
  | cons row rows =>
    rw [hrows] at hfst
    exact ⟨row, rows, rfl, some.inj hfst⟩

theorem Summarises.exists_last : ∃ row ∈ s.pendingRows input.toSequence, row.id =
    input.toMessageID ∧ row.sequence = input.toSequence := by
  obtain ⟨row, hrow, heq⟩ := map_eq_some_iff.1 h.last
  exact ⟨row, mem_of_getLast? hrow, mk.inj heq⟩

theorem Summarises.watermark_lt : s.watermark < input.directFromSequence := by
  obtain ⟨row, rows, hrows, hseq⟩ := h.exists_first
  have hmem : row ∈ s.pendingRows input.toSequence := hrows ▸ mem_cons_self
  exact hseq ▸ (mem_pendingRows.1 hmem).2.2.1

theorem Summarises.first_le_last : input.directFromSequence ≤ input.toSequence := by
  obtain ⟨row, rows, hrows, hseq⟩ := h.exists_first
  have hmem : row ∈ s.pendingRows input.toSequence := hrows ▸ mem_cons_self
  exact hseq ▸ (mem_pendingRows.1 hmem).2.2.2

end

theorem Coherent.directRows_eq (hs : Coherent s) (hlast : input.directToSequence = input.toSequence)
    (haft : s.watermark < input.directFromSequence)
    (hskips : ∀ m ∈ s.pendingRows input.toSequence, input.directFromSequence ≤ m.sequence) :
    s.directRows input = s.pendingRows input.toSequence := by
  rw [directRows, completedHistoryRange, hs.sortBySequence_filter, hlast]
  refine filter_congr fun m hm => ?_
  cases hend : s.hasEnded m with
  | false => rfl
  | true =>
    rw [Bool.true_and, Bool.true_and, Bool.eq_iff_iff]
    simp only [Bool.and_eq_true, decide_eq_true_iff]
    refine ⟨fun hrange => ⟨by omega, hrange.2⟩, fun hrange => ⟨?_, hrange.2⟩⟩
    exact hskips m (mem_pendingRows.2 ⟨hm, hend, hrange⟩)

theorem Summarises.directRows_eq (hs : Coherent s) (h : Summarises s input) :
    s.directRows input = s.pendingRows input.toSequence :=
  hs.directRows_eq h.direct h.watermark_lt fun _ hm => hs.first_le h.first hm

def Tables.chainEnd (s : Tables) : Int × Int :=
  ((s.activeHead.map (·.sourceMessageCount)).getD 0, s.watermark)

theorem Summarises.chain_ok (h : Summarises s input) :
    s.validateCompactionChain input = .ok s.chainEnd := by
  have hsup := h.supersedes
  have haft := h.watermark_lt
  have horg := h.origin
  rw [watermark] at haft
  rw [validateCompactionChain, chainEnd, watermark]
  cases hhead : s.activeHead with
  | none =>
    rw [hhead] at hsup horg
    have hfst : input.directFromSequence = input.fromSequence := by
      rcases horg with horg | ⟨_, horg⟩
      · cases horg
      · obtain ⟨row, rows, hrows, hseq⟩ := h.exists_first
        rw [hrows] at horg
        exact hseq.symm.trans (mk.inj (some.inj horg)).2
    rw [if_neg]
    · rfl
    · intro hwrong
      rcases hwrong with hwrong | hwrong | hwrong
      · exact hwrong hsup
      · exact hwrong hfst
      · exact hwrong h.direct
  | some head =>
    rw [hhead] at hsup horg haft
    rcases horg with horg | ⟨hnone, _⟩
    · obtain ⟨hfrom, hseq⟩ := mk.inj (some.inj horg)
      have haft : head.toSequence < input.directFromSequence := haft
      have hval : invalidCompactionPredecessor head input = false := by
        simp [invalidCompactionPredecessor, hsup, hfrom, hseq, h.direct, haft]
      dsimp only
      rw [hval]
      rfl
    · cases hnone

theorem Summarises.skips_nothing (hs : Coherent s) (h : Summarises s input) :
    s.validateCompactionPrefix s.watermark input.directFromSequence = .ok () := by
  rw [validateCompactionPrefix, if_neg]
  rw [not_not]
  refine countP_eq_zero.2 fun m hm hskipped => ?_
  simp only [Bool.and_eq_true, decide_eq_true_iff] at hskipped
  obtain ⟨hend, haft, hbef⟩ := hskipped
  have hlast := h.first_le_last
  have hpend : m ∈ s.pendingRows input.toSequence :=
    mem_pendingRows.2 ⟨hm, hend, haft, by omega⟩
  have hfst := hs.first_le h.first hpend
  omega

theorem Tables.countCompletedHistoryRange_eq (s : Tables) (fromSequence toSequence : Int) :
    s.countCompletedHistoryRange fromSequence toSequence =
      (s.completedHistoryRange fromSequence toSequence).length := by
  rw [completedHistoryRange, sortBySequence, length_insertionSort]
  exact countP_eq_length_filter

theorem Summarises.read_ok (hs : Coherent s) (h : Summarises s input) :
    s.readDirectCompactionMessages input s.chainEnd.1 = .ok (s.pendingRows input.toSequence) := by
  have hrows := h.directRows_eq hs
  rw [directRows] at hrows
  have hct := h.count
  obtain ⟨row, rows, hcons, _⟩ := h.exists_first
  have hpos : 1 ≤ (s.pendingRows input.toSequence).length := by
    rw [hcons, length_cons]
    omega
  rw [readDirectCompactionMessages, countCompletedHistoryRange_eq, hrows, chainEnd]
  rw [if_neg]
  omega

theorem Summarises.bounds_ok (h : Summarises s input) :
    checkBounds (s.pendingRows input.toSequence) input s.chainEnd.1 = .ok () := by
  obtain ⟨row, hrow, heq⟩ := map_eq_some_iff.1 h.last
  obtain ⟨hid, hseq⟩ := mk.inj heq
  have hct : ((s.pendingRows input.toSequence).length : Int) =
      input.sourceMessageCount - s.chainEnd.1 := by
    have hct := h.count
    rw [chainEnd]
    omega
  have hval : invalidCompactionBounds (s.pendingRows input.toSequence) input s.chainEnd.1
      = false := by
    simp [invalidCompactionBounds, h.first, hrow, hid, hseq, h.direct, hct]
  rw [checkBounds, hval]
  rfl

theorem Summarises.first_ok (hs : Coherent s) (h : Summarises s input) :
    checkFirstMessage (s.pendingRows input.toSequence) input s.chainEnd.1 = .ok () := by
  rw [checkFirstMessage, if_neg]
  intro hwrong
  obtain ⟨hzero, hfst⟩ := hwrong
  rw [chainEnd] at hzero
  cases hhead : s.activeHead with
  | none =>
    have horg := h.origin
    rw [hhead] at horg
    rcases horg with horg | ⟨_, horg⟩
    · cases horg
    · obtain ⟨row, hrow, heq⟩ := map_eq_some_iff.1 horg
      rw [hrow] at hfst
      exact hfst (congrArg some (mk.inj heq).1)
  | some head =>
    have hct := (hs.counts head (hs.activeHead_mem hhead)).1
    rw [hhead] at hzero
    have hzero : head.sourceMessageCount = 0 := hzero
    omega

theorem Coherent.validatedIDs_ok (hs : Coherent s) (rows : List Message)
    (hrows : ∀ m ∈ rows, m ∈ s.messages ∧ s.hasEnded m ∧ s.watermark < m.sequence) :
    s.validatedCompactionIDs rows = .ok (rows.map (·.id)) := by
  induction rows with
  | nil => rfl
  | cons m rows ih =>
    obtain ⟨hm, hend, hbey⟩ := hrows m mem_cons_self
    obtain ⟨t, ht, hend⟩ := any_eq_true.1 hend
    simp only [Bool.and_eq_true, beq_iff_eq, bne_iff_ne] at hend
    have hfd : s.turn? m.turnID = some t := hend.1 ▸ hs.turn?_eq ht
    have hval : s.validateCompactionMessage m = .ok () := by
      rw [validateCompactionMessage, if_neg (not_not.2 (hs.unassigned hm hbey)), hfd]
      dsimp only
      rw [if_neg hend.2]
    rw [validatedCompactionIDs, hval, ih fun m hm => hrows m (mem_cons_of_mem _ hm)]
    rfl

theorem Summarises.ends (hs : Coherent s) (h : Summarises s input) :
    s.HasRow input.fromMessageID input.fromSequence ∧
      s.HasRow input.toMessageID input.toSequence := by
  refine ⟨?_, ?_⟩
  · rcases h.origin with horg | ⟨_, horg⟩
    · obtain ⟨head, hhead, heq⟩ := map_eq_some_iff.1 horg
      obtain ⟨hid, hseq⟩ := mk.inj heq
      rw [← hid, ← hseq]
      exact (hs.ends head (hs.activeHead_mem hhead)).1
    · obtain ⟨row, hrow, heq⟩ := map_eq_some_iff.1 horg
      have hmem := mem_of_mem_head? hrow
      exact ⟨row, (mem_pendingRows.1 hmem).1, mk.inj heq⟩
  · obtain ⟨row, hrow, heq⟩ := h.exists_last
    exact ⟨row, (mem_pendingRows.1 hrow).1, heq⟩

/-- **The history accepts a summary exactly if the rows at its ends are complete.** -/
theorem Summarises.history_iff (hs : Coherent s) (h : Summarises s input) :
    s.validateCompactionHistory input = .ok ((s.pendingRows input.toSequence).map (·.id)) ∧
        s.CompleteRow input.fromMessageID ∧ s.CompleteRow input.toMessageID ∨
      (∀ ids, s.validateCompactionHistory input ≠ .ok ids) ∧
        ¬ (s.CompleteRow input.fromMessageID ∧ s.CompleteRow input.toMessageID) := by
  obtain ⟨hfrom, hto⟩ := h.ends hs
  have hfrom := hs.boundary_iff hfrom
  have hto := hs.boundary_iff hto
  by_cases hcomp : s.CompleteRow input.fromMessageID ∧ s.CompleteRow input.toMessageID
  · refine .inl ⟨?_, hcomp⟩
    have hids := hs.validatedIDs_ok (s.pendingRows input.toSequence) fun m hm =>
      have hm := mem_pendingRows.1 hm
      ⟨hm.1, hm.2.1, hm.2.2.1⟩
    rw [validateCompactionHistory, hfrom.2 hcomp.1, hto.2 hcomp.2, h.chain_ok]
    show (do
      let _ ← s.validateCompactionPrefix s.watermark input.directFromSequence
      let messages ← s.readDirectCompactionMessages input s.chainEnd.1
      let _ ← checkBounds messages input s.chainEnd.1
      let _ ← checkFirstMessage messages input s.chainEnd.1
      s.validatedCompactionIDs messages) = _
    rw [h.skips_nothing hs, h.read_ok hs]
    show (do
      let _ ← checkBounds (s.pendingRows input.toSequence) input s.chainEnd.1
      let _ ← checkFirstMessage (s.pendingRows input.toSequence) input s.chainEnd.1
      s.validatedCompactionIDs (s.pendingRows input.toSequence)) = _
    rw [h.bounds_ok, h.first_ok hs, hids]
    rfl
  · refine .inr ⟨fun ids hids => hcomp ?_, hcomp⟩
    obtain ⟨_, hfst, hids⟩ := of_bind hids
    obtain ⟨_, hlast, _⟩ := of_bind hids
    exact ⟨hfrom.1 hfst, hto.1 hlast⟩

end Checks

/-! ## The stored row -/

section Saved
variable {cfg : Config} {s : Tables} {input : CompactionInput}

/-- The texts and numbers of a row pass the store's checks: the summary, the model, the hash of the
prompt, the token counts and the size. -/
structure MetadataInOrder (cfg : Config) (input : CompactionInput) : Prop where
  summary : isBlank input.summary = false
  modelID : isBlank input.modelID = false
  promptHash : isBlank input.promptHash = false
  tokens : 0 ≤ input.inputTokenCount ∧ 0 ≤ input.summaryTokenCount
  size : (cfg.encodeCompaction input).utf8ByteSize ≤ cfg.maxStoredMessageBytes

section
variable (hs : Coherent s) (h : Summarises s input)
include hs h

theorem Summarises.directBounds_eq : directBounds input = input := by
  obtain ⟨row, rows, hrows, hseq⟩ := h.exists_first
  have hmem : row ∈ s.pendingRows input.toSequence := hrows ▸ mem_cons_self
  have hpos := (hs.numbered.bounds (mem_pendingRows.1 hmem).1).1
  have hfst := h.first_le_last
  have hdir := h.direct
  rw [directBounds, if_neg (by omega), if_neg (by omega)]

theorem Summarises.from_bounds :
    0 < input.fromSequence ∧ input.fromSequence ≤ input.directFromSequence := by
  obtain ⟨m, hm, _, hseq⟩ := (h.ends hs).1
  have hpos := (hs.numbered.bounds hm).1
  rcases h.origin with horg | ⟨_, horg⟩
  · obtain ⟨head, hhead, heq⟩ := map_eq_some_iff.1 horg
    have hfrom := (mk.inj heq).2
    have hordered := (hs.counts head (hs.activeHead_mem hhead)).2
    have hreach := hs.toSequence_le (hs.activeHead_mem hhead)
    have haft := h.watermark_lt
    omega
  · obtain ⟨row, rows, hrows, hfst⟩ := h.exists_first
    rw [hrows] at horg
    have hfrom := (mk.inj (some.inj horg)).2
    omega

theorem Summarises.validate_ok (hmeta : MetadataInOrder cfg input)
    (hid : input.id = UUID.nil ∨ input.id = activityID)
    (hends : input.fromMessageID ≠ UUID.nil ∧ input.toMessageID ≠ UUID.nil) :
    validateActivityCompaction cfg input activityID = .ok { input with id := activityID } := by
  have hident : invalidCompactionIdentity input activityID = false := by
    rcases hid with hid | hid <;> simp [invalidCompactionIdentity, hid, hends.1, hends.2]
  have hct : 1 ≤ input.sourceMessageCount := by
    obtain ⟨row, rows, hrows, _⟩ := h.exists_first
    have hct := h.count
    rw [hrows, length_cons] at hct
    cases hhead : s.activeHead with
    | none => rw [hhead] at hct; simp only [map_none, getD_none] at hct; omega
    | some head =>
      have hpos := (hs.counts head (hs.activeHead_mem hhead)).1
      rw [hhead] at hct
      simp only [map_some, getD_some] at hct
      omega
  have hval : invalidCompactionMetadata input = false := by
    have h1 : ¬ input.sourceMessageCount < 1 := by omega
    have h2 : ¬ input.inputTokenCount < 0 := Int.not_lt.2 hmeta.tokens.1
    have h3 : ¬ input.summaryTokenCount < 0 := Int.not_lt.2 hmeta.tokens.2
    simp [invalidCompactionMetadata, hmeta.summary, hmeta.modelID, hmeta.promptHash, h1, h2, h3]
  obtain ⟨hpos, hfrom⟩ := h.from_bounds hs
  have hlast := h.first_le_last
  have hdir := h.direct
  have hbds : directBounds { input with id := activityID } = { input with id := activityID } := by
    have heq := h.directBounds_eq hs
    have hfst := congrArg CompactionInput.directFromSequence heq
    have hto := congrArg CompactionInput.directToSequence heq
    rw [directBounds] at hfst hto ⊢
    dsimp only at hfst hto ⊢
    rw [hfst, hto]
  rw [validateActivityCompaction, hident, hval, Bool.or_false, if_neg (by simp),
    if_neg (Nat.not_lt.2 hmeta.size), normalizeCompactionInput]
  dsimp only
  rw [if_neg (by omega), hbds]
  dsimp only
  rw [if_neg (by omega)]

theorem Summarises.create_ok (hfr : ∀ c ∈ s.compactions, c.id ≠ input.id) : ∃ s',
    s.createCompactionForMessages (compactionRecord cfg input)
    ((s.pendingRows input.toSequence).map (·.id)) = .ok s' := by
  obtain ⟨row, rows, hrows, _⟩ := h.exists_first
  have hnew : (s.compactions.any fun c => c.id == (compactionRecord cfg input).id ||
      ((compactionRecord cfg input).supersedesCompactionID.isSome &&
        c.supersedesCompactionID == (compactionRecord cfg input).supersedesCompactionID)) = false := by
    refine any_eq_false.2 fun c hc hclash => ?_
    rcases Bool.or_eq_true_iff.1 hclash with hclash | hclash
    · exact hfr c hc (beq_iff_eq.1 hclash)
    · obtain ⟨hsome, hsame⟩ := Bool.and_eq_true_iff.1 hclash
      have hsup : (compactionRecord cfg input).supersedesCompactionID = s.activeHead.map (·.id) :=
        h.supersedes
      rw [hsup] at hsome hsame
      obtain ⟨head, hhead⟩ := isSome_iff_exists.1 (by simpa using hsome)
      rw [hhead] at hsame
      exact hs.activeHead_unsuperseded hhead hc (beq_iff_eq.1 hsame)
  have hct : s.messages.countP (fun m =>
      ((s.pendingRows input.toSequence).map (·.id)).contains m.id && m.compactionID == none) =
      ((s.pendingRows input.toSequence).map (·.id)).length := by
    rw [length_map, pendingRows, ← countP_eq_length_filter]
    refine countP_congr fun m hm => ?_
    rw [Bool.and_eq_true, contains_iff_mem, beq_iff_eq]
    refine ⟨fun hassigned => ?_, fun hpend => ?_⟩
    · obtain ⟨m', hm', hid⟩ := mem_map.1 hassigned.1
      have hmem' := (mem_pendingRows.1 hm').1
      obtain rfl := inj_on_of_nodup_map hs.ids hmem' hm hid
      exact (mem_filter.1 hm').2
    · have hmem : m ∈ s.pendingRows input.toSequence := mem_filter.2 ⟨hm, hpend⟩
      exact ⟨mem_map_of_mem hmem, hs.unassigned hm (mem_pendingRows.1 hmem).2.2.1⟩
  have hcreate : s.insertCompaction (compactionRecord cfg input) =
      .ok { s with compactions := s.compactions ++ [compactionRecord cfg input] } := by
    rw [insertCompaction, hnew]
    rfl
  rw [createCompactionForMessages, if_neg (by simp [hrows])]
  exact ⟨_, bind_eq_ok.2 ⟨_, hcreate, if_neg (not_not.2 hct)⟩⟩

theorem Summarises.saved_iff (hmeta : MetadataInOrder cfg input)
    (hid : input.id = UUID.nil ∨ input.id = activityID)
    (hends : input.fromMessageID ≠ UUID.nil ∧ input.toMessageID ≠ UUID.nil)
    (hfr : ∀ c ∈ s.compactions, c.id ≠ activityID) :
    (∃ s', saveActivityCompaction cfg s activityID input = .ok s') ↔
    s.CompleteRow input.fromMessageID ∧ s.CompleteRow input.toMessageID := by
  have hval := h.validate_ok hs hmeta hid hends
  have hnm : Summarises s { input with id := activityID } :=
    ⟨h.first, h.last, h.direct, h.supersedes, h.count, h.origin⟩
  rw [saveActivityCompaction, hval]
  show (∃ s', (do
    let ids ← s.validateCompactionHistory { input with id := activityID }
    s.createCompactionForMessages (compactionRecord cfg { input with id := activityID }) ids)
      = .ok s') ↔ _
  rcases hnm.history_iff hs with ⟨hhist, hcomp⟩ | ⟨href, hincomplete⟩
  · rw [hhist]
    exact ⟨fun _ => hcomp, fun _ => hnm.create_ok hs hfr⟩
  · refine ⟨fun hsv => ?_, fun hcomp => absurd hcomp hincomplete⟩
    obtain ⟨s', hsv⟩ := hsv
    obtain ⟨ids, hids, _⟩ := of_bind hsv
    exact absurd hids (href ids)

end

theorem Checked.summarises (hs : Coherent s) (hchk : Checked s input)
    (h : s.validateCompactionHistory input = .ok ids) : Summarises s input := by
  obtain ⟨_, _, h⟩ := of_bind h
  obtain ⟨_, _, h⟩ := of_bind h
  obtain ⟨⟨priorCount, afterSequence⟩, hchn, h⟩ := of_bind h
  obtain ⟨_, _, h⟩ := of_bind h
  obtain ⟨messages, hread, h⟩ := of_bind h
  obtain ⟨_, hbds, h⟩ := of_bind h
  obtain ⟨_, hfst, _⟩ := of_bind h
  obtain ⟨_, _, hprior, _, horg⟩ := validateCompactionChain_ok hchn
  have hrows : messages = s.pendingRows input.toSequence := by
    obtain ⟨_, hread⟩ := of_check hread
    cases hread
    refine hs.directRows_eq hchk.last hchk.after fun m hm => ?_
    obtain ⟨hmem, hend, hbey, _⟩ := mem_pendingRows.1 hm
    exact hchk.skips m hmem hend hbey
  rw [hrows, hprior] at hbds hfst
  obtain ⟨hval, hbds⟩ := of_check hbds
  simp only [invalidCompactionBounds, Bool.or_eq_true, bne_iff_ne, ne_eq, not_or, not_not] at hval
  obtain ⟨⟨⟨hhead, hto⟩, htoID⟩, hct⟩ := hval
  have hlast : (s.pendingRows input.toSequence).getLast?.map (fun m => (m.id, m.sequence)) =
      some (input.toMessageID, input.toSequence) := by
    obtain ⟨m, hm, hseq⟩ := map_eq_some_iff.1 hto
    rw [hm] at htoID ⊢
    rw [← some.inj htoID, ← hchk.last, ← hseq]
    rfl
  refine ⟨hhead, hlast, hchk.last, hchk.supersedes, ?_, ?_⟩
  · omega
  · refine horg.imp And.right fun horg => ⟨horg.1, ?_⟩
    obtain ⟨hnone, hfrom⟩ := horg
    obtain ⟨hsame, hfst⟩ := of_check hfst
    have hid := not_not.1 fun hoth => hsame ⟨by rw [hnone]; rfl, hoth⟩
    obtain ⟨m, hm, hseq⟩ := map_eq_some_iff.1 hhead
    rw [hm] at hid ⊢
    rw [← some.inj hid, ← hfrom, ← hseq]
    rfl

/-- **The store accepts a compaction exactly if it summarises the pending rows and the rows at its
ends are complete.** -/
theorem Coherent.saved_iff (hs : Coherent s) (hmeta : MetadataInOrder cfg input)
    (hid : input.id = UUID.nil ∨ input.id = activityID)
    (hends : input.fromMessageID ≠ UUID.nil ∧ input.toMessageID ≠ UUID.nil)
    (hdir : input.directFromSequence ≠ 0 ∧ input.directToSequence ≠ 0)
    (hfr : ∀ c ∈ s.compactions, c.id ≠ activityID) :
    (∃ s', saveActivityCompaction cfg s activityID input = .ok s') ↔
      Summarises s input ∧ s.CompleteRow input.fromMessageID ∧ s.CompleteRow input.toMessageID := by
  refine ⟨fun hsv => ?_, fun h => (h.1.saved_iff hs hmeta hid hends hfr).2 h.2⟩
  have hsummarises : Summarises s input := by
    obtain ⟨s', hsv⟩ := hsv
    obtain ⟨normalized, hnorm, hchk, ⟨ids, hids⟩, _⟩ :=
      saveActivityCompaction_ok hsv
    rw [directBounds, if_neg hdir.1, if_neg hdir.2] at hnorm
    subst hnorm
    obtain ⟨hfst, hlast, hto, hsup, hct, horg⟩ := hchk.summarises hs hids
    exact ⟨hfst, hlast, hto, hsup, hct, horg⟩
  exact ⟨hsummarises, (hsummarises.saved_iff hs hmeta hid hends hfr).1 hsv⟩

end Saved

/-! ## The completion -/

section Complete
variable {cfg : Config} {s : Tables} {lease : ActivityLease} {activity : ExecutionActivity}
  {execution : Execution} {output context : String}

def compactionCompletion (output context : String) (row : CompactionInput) :
    CompleteActivityInput :=
  ⟨output, context, none, some row, none, none⟩

/-- A root compaction activity runs under its lease, and everything in its completion but the
compaction is in order. -/
structure ReadyToCompact (cfg : Config) (s : Tables) (lease : ActivityLease)
    (activity : ExecutionActivity) (execution : Execution) (output context : String) : Prop where
  found : s.executions.activityForLease cfg.sessionID lease = .ok (activity, execution)
  running : activity.state = .running
  compaction : activity.kind = .compaction
  root : execution.kind = .root
  named : activity.name ≠ executionFinishActivityName
  events : execution.eventCount ≠ maxInt64
  result : validateResultJSON cfg.toConfig output context = .ok ()

theorem Recorded.fresh (hs : Recorded s)
    (hrdy : ReadyToCompact cfg s lease activity execution output context) :
    ∀ c ∈ s.compactions, c.id ≠ lease.id := by
  intro c hc hid
  obtain ⟨history, hk⟩ := hs.kept
  obtain ⟨a, ha, haid, hst⟩ := hs.completed c hc
  obtain ⟨hmem, _, hls, _⟩ := Store.of_activityForLease hrdy.found
  have heq : a = activity := hk.eq_of_id ha hmem (haid.trans (hid.trans hls.symm))
  rw [heq, hrdy.running] at hst
  cases hst

theorem ReadyToCompact.saveCompletion_iff
    (h : ReadyToCompact cfg s lease activity execution output context)
    (answers : CompletionAnswers) (row : CompactionInput) :
    (∃ r, s.executions.saveCompletion cfg.toConfig answers activity execution
      ((compactionCompletion output context row).request cfg) = .ok r) ↔
      answers.compaction = .ok () := by
  have hck : Store.checkActivityCompaction (activity.withResult output context) execution
      ((compactionCompletion output context row).request cfg) = .ok () := by
    have hkind : ¬ ((activity.withResult output context).kind ≠ .compaction ∨
        ((compactionCompletion output context row).request cfg).finish.isSome) := by
      intro hbad
      rcases hbad with hbad | hbad
      · exact hbad h.compaction
      · cases hbad
    rw [Store.checkActivityCompaction, h.root]
    exact if_neg hkind
  refine ⟨fun hsv => ?_, fun hans => ?_⟩
  · obtain ⟨r, hsv⟩ := hsv
    obtain ⟨_, hcomp, _⟩ := of_bind hsv
    obtain ⟨_, _, hcomp⟩ := of_bind hcomp
    obtain ⟨_, hans, _⟩ := of_bind hcomp
    exact hans
  · exact ⟨_, bind_eq_ok.2 ⟨_, bind_eq_ok.2 ⟨(), hck, bind_eq_ok.2 ⟨(), hans, rfl⟩⟩,
      bind_eq_ok.2 ⟨_, rfl, bind_eq_ok.2 ⟨_, if_neg h.events, rfl⟩⟩⟩⟩

/-- **A root compaction completes exactly if the store accepts its compaction.** -/
theorem ReadyToCompact.complete_iff
    (h : ReadyToCompact cfg s lease activity execution output context)
    (active : Option ActiveTurn) (outside : CompletionAnswers) (row : CompactionInput)
    (newID : Nat → UUID) : (∃ r, completeExecutionActivity cfg s active outside lease
      (compactionCompletion output context row) newID = .ok r) ↔
      ∃ s', saveActivityCompaction cfg s lease.id row = .ok s' := by
  have hres : validateActivityResult cfg.toConfig
      (inputAnswers cfg outside (compactionCompletion output context row))
      ((compactionCompletion output context row).request cfg) = .ok () :=
    bind_eq_ok.2 ⟨(), h.result, rfl⟩
  have hwr : completionWrite cfg s active execution outside.compaction lease.id
      (compactionCompletion output context row) newID =
      saveActivityCompaction cfg s lease.id row :=
    if_neg (by rw [h.root]; nofun)
  have hclm : validateFinishClaim activity execution
      ((compactionCompletion output context row).request cfg) = .ok () :=
    bind_eq_ok.2 ⟨(), if_neg h.named, rfl⟩
  have hquery : ∀ answers : CompletionAnswers,
      s.executions.completeActivityWithQuery cfg.toConfig answers cfg.sessionID lease
        ((compactionCompletion output context row).request cfg) =
      s.executions.saveCompletion cfg.toConfig answers activity execution
        ((compactionCompletion output context row).request cfg) := by
    intro answers
    rw [Store.completeActivityWithQuery, h.found]
    refine (if_neg (by rw [h.running]; nofun)).trans ((if_neg (not_not.2 h.running)).trans ?_)
    rw [hclm]
    rfl
  refine ⟨fun hdone => ?_, fun hsv => ?_⟩
  · obtain ⟨r, hdone⟩ := hdone
    obtain ⟨_, _, hdone⟩ := of_bind hdone
    obtain ⟨_, hfd, hdone⟩ := of_bind hdone
    cases h.found.symm.trans hfd
    obtain ⟨r, hsv, _⟩ := of_bind hdone
    rw [hquery] at hsv
    have hans := (h.saveCompletion_iff _ row).1 ⟨r, hsv⟩
    rw [hwr] at hans
    cases hsave : saveActivityCompaction cfg s lease.id row with
    | error e => rw [hsave] at hans; cases hans
    | ok s' => exact ⟨s', rfl⟩
  · obtain ⟨s', hsv⟩ := hsv
    have hans : (completionAnswers cfg s outside execution.id
        (compactionCompletion output context row) (completionWrite cfg s active execution
          outside.compaction lease.id (compactionCompletion output context row) newID)).compaction =
        .ok () := by
      rw [hwr, hsv]
      rfl
    obtain ⟨r, hr⟩ := (h.saveCompletion_iff _ row).2 hans
    rw [← hquery] at hr
    exact ⟨_, bind_eq_ok.2 ⟨(), hres, bind_eq_ok.2 ⟨_, h.found, bind_eq_ok.2 ⟨_, hr, rfl⟩⟩⟩⟩

end Complete

end Peen.Sessions
