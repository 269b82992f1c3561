import Peen.Session.TranscriptChanges

/-!
# Coherence of the transcript

What every run keeps about the turns, the messages and the compactions of a session.
-/

namespace Peen.Sessions

open Tables Tables
open List hiding head
open Relation (ReflTransGen)

/-! ## Numbered rows -/

variable {m : Message} {id : UUID} {sequence : Int}

section Numbered
variable {n : Int}

theorem numbered_append : Numbered n (l ++ l') ↔ Numbered n l ∧ Numbered (n + l.length) l' := by
  induction l generalizing n with
  | nil => simp [Numbered]
  | cons m l ih =>
    have hlen : n + 1 + (l.length : Int) = n + ((m :: l).length : Nat) := by
      rw [length_cons]
      omega
    show (_ ∧ Numbered (n + 1) (l ++ l')) ↔ (_ ∧ Numbered (n + 1) l) ∧ _
    rw [ih, hlen, and_assoc]

theorem Numbered.map (hf : ∀ m, (f m).sequence = m.sequence) (h : Numbered n l) :
    Numbered n (l.map f) := by
  induction l generalizing n with
  | nil => exact trivial
  | cons m l ih => exact ⟨(hf m).trans h.1, ih h.2⟩

theorem Numbered.bounds (h : Numbered n l) (hm : m ∈ l) :
    n < m.sequence ∧ m.sequence ≤ n + l.length := by
  induction l generalizing n with
  | nil => cases hm
  | cons m' l ih =>
    rw [length_cons]
    rcases mem_cons.1 hm with rfl | hm
    · have := h.1
      omega
    · have := ih h.2 hm
      omega

theorem Numbered.pairwise (h : Numbered n l) : l.Pairwise fun a b => a.sequence < b.sequence := by
  induction l generalizing n with
  | nil => exact .nil
  | cons m l ih =>
    refine .cons (fun m' hm' => ?_) (ih h.2)
    have := h.1
    have := (h.2.bounds hm').1
    omega

end Numbered

/-! ## Chains of compactions -/

/-- The compactions, the newest first: each supersedes the one before it and reaches further. -/
def Chain : List Compaction → Prop
  | [] => True
  | c :: older => c.supersedesCompactionID = older.head?.map (·.id) ∧
      (older.head?.map (·.toSequence)).getD 0 < c.toSequence ∧ Chain older

namespace Chain
section
variable (h : Chain (c :: older))
include h

theorem superseded (hd : d ∈ older) :
    ∃ newer ∈ c :: older, newer.supersedesCompactionID = some d.id := by
  induction older generalizing c with
  | nil => cases hd
  | cons c' older ih =>
    rcases mem_cons.1 hd with rfl | hd
    · exact ⟨c, mem_cons_self, h.1⟩
    · obtain ⟨newer, hnewer, heq⟩ := ih h.2.2 hd
      exact ⟨newer, mem_cons_of_mem c hnewer, heq⟩

theorem older_of_supersedes (hnewer : newer ∈ c :: older)
    (hid : newer.supersedesCompactionID = some id) : ∃ d ∈ older, d.id = id := by
  induction older generalizing c with
  | nil =>
    obtain rfl := mem_singleton.1 hnewer
    rw [h.1] at hid
    cases hid
  | cons c' older ih =>
    rcases mem_cons.1 hnewer with rfl | hnewer
    · rw [h.1] at hid
      exact ⟨c', mem_cons_self, Option.some.inj hid⟩
    · obtain ⟨d, hd, heq⟩ := ih h.2.2 hnewer
      exact ⟨d, mem_cons_of_mem c' hd, heq⟩

theorem toSequence_le (hd : d ∈ c :: older) : d.toSequence ≤ c.toSequence := by
  induction older generalizing c with
  | nil =>
    obtain rfl := mem_singleton.1 hd
    exact Int.le_refl _
  | cons c' older ih =>
    rcases mem_cons.1 hd with rfl | hd
    · exact Int.le_refl _
    · have hle := ih h.2.2 hd
      have hlt : c'.toSequence < c.toSequence := h.2.1
      omega

theorem filter_unsuperseded (hids : ((c :: older).map (·.id)).Nodup) :
    (c :: older).filter
    (fun d => !(c :: older).any fun newer => newer.supersedesCompactionID == some d.id) = [c] := by
  rw [filter_cons_of_pos, filter_eq_nil_iff.2]
  · intro d hd
    obtain ⟨newer, hnewer, heq⟩ := h.superseded hd
    rw [Bool.not_eq_true, Bool.not_eq_false']
    exact any_eq_true.2 ⟨newer, hnewer, beq_iff_eq.2 heq⟩
  · rw [Bool.not_eq_true', any_eq_false]
    intro newer hnewer heq
    obtain ⟨d, hd, hid⟩ := h.older_of_supersedes hnewer (beq_iff_eq.1 heq)
    exact (nodup_cons.1 hids).1 (mem_map.2 ⟨d, hd, hid⟩)

end

end Chain

/-- The compaction extends the one before it. -/
def Tables.Supersedes (s : Tables) (newer older : Compaction) : Prop :=
  older ∈ s.compactions ∧ newer.supersedesCompactionID = some older.id

theorem Chain.reaches {s : Tables} (h : Chain (c :: older)) (hsub : ∀ d ∈ older, d ∈ s.compactions)
    (hd : d ∈ c :: older) : ReflTransGen s.Supersedes c d := by
  induction older generalizing c with
  | nil =>
    obtain rfl := mem_singleton.1 hd
    exact .refl
  | cons c' older ih =>
    rcases mem_cons.1 hd with rfl | hd
    · exact .refl
    · have hstep : s.Supersedes c c' := ⟨hsub c' mem_cons_self, h.1⟩
      exact .head hstep (ih h.2.2 (fun d hd => hsub d (mem_cons_of_mem c' hd)) hd)

/-! ## The invariant -/

def Tables.HasRow (s : Tables) (id : UUID) (sequence : Int) : Prop :=
  ∃ m ∈ s.messages, m.id = id ∧ m.sequence = sequence

/-- Messages are numbered and owned, ids are new, and the compactions form a chain. -/
structure Coherent (s : Tables) : Prop where
  numbered : Numbered 0 s.messages
  count : s.messageCount = s.messages.length
  ids : (s.messages.map (·.id)).Nodup
  turnIDs : (s.turns.map (·.id)).Nodup
  owned : ∀ m ∈ s.messages, ∃ t ∈ s.turns, t.id = m.turnID
  chain : Chain s.compactions.reverse
  compactionIDs : (s.compactions.map (·.id)).Nodup
  assigned : ∀ m ∈ s.messages, ∀ id, m.compactionID = some id →
    ∃ c ∈ s.compactions, c.id = id ∧ c.fromSequence ≤ m.sequence ∧ m.sequence ≤ c.toSequence
  ends : ∀ c ∈ s.compactions,
    s.HasRow c.fromMessageID c.fromSequence ∧ s.HasRow c.toMessageID c.toSequence
  counts : ∀ c ∈ s.compactions, 1 ≤ c.sourceMessageCount ∧ c.fromSequence ≤ c.toSequence

theorem coherent_empty : Coherent .empty where
  numbered := trivial
  count := rfl
  ids := .nil
  turnIDs := .nil
  owned := nofun
  chain := trivial
  compactionIDs := .nil
  assigned := nofun
  ends := nofun
  counts := nofun

section ActiveHead
variable {s : Tables}

/-- **The newest compaction is the active one.** -/
theorem Coherent.activeHead_eq (h : Coherent s) : s.activeHead = s.compactions.reverse.head? := by
  have hrev : s.unsuperseded.reverse = s.compactions.reverse.filter fun c =>
      !s.compactions.reverse.any fun newer => newer.supersedesCompactionID == some c.id := by
    rw [unsuperseded, ← filter_reverse]
    refine filter_congr fun c _ => ?_
    rw [any_reverse]
  have hids : (s.compactions.reverse.map (·.id)).Nodup := by
    rw [map_reverse]
    exact nodup_reverse.2 h.compactionIDs
  have hchn := h.chain
  cases hc : s.compactions.reverse with
  | nil =>
    rw [hc] at hrev
    have hnil : s.unsuperseded = [] := reverse_eq_nil_iff.1 hrev
    rw [activeHead, hnil]
    rfl
  | cons c older =>
    rw [hc] at hrev hids hchn
    rw [hchn.filter_unsuperseded hids] at hrev
    have hone : s.unsuperseded = [c] := reverse_eq_iff.1 hrev
    rw [activeHead, hone]
    rfl

/-- How far the active compaction reaches. -/
def Tables.watermark (s : Tables) : Int := (s.activeHead.map (·.toSequence)).getD 0

theorem Tables.completedHistory_messages (s : Tables) :
    s.completedHistory.messages = s.completedHistoryAfter s.watermark := by
  rw [completedHistory, watermark]
  cases s.activeHead <;> rfl

theorem Tables.mem_sortBySequence :
    m ∈ sortBySequence l ↔ m ∈ l :=
  (perm_insertionSort _ l).mem_iff

theorem Tables.mem_completedHistory : m ∈ s.completedHistory.messages ↔
    m ∈ s.messages ∧ s.hasEnded m ∧ s.watermark < m.sequence := by
  rw [completedHistory_messages, completedHistoryAfter, mem_sortBySequence,
    mem_filter, Bool.and_eq_true, decide_eq_true_iff]

/-- The compactions of the active chain: the active one and those it supersedes. -/
def Tables.InActiveChain (s : Tables) (c : Compaction) : Prop :=
  ∃ head, s.activeHead = some head ∧ ReflTransGen s.Supersedes head c

theorem Coherent.newest (h : Coherent s) (hc : c ∈ s.compactions) :
    ∃ head older, s.compactions.reverse = head :: older ∧ s.activeHead = some head ∧
      Chain (head :: older) ∧ c ∈ head :: older := by
  have hmem : c ∈ s.compactions.reverse := mem_reverse.2 hc
  have hhead := h.activeHead_eq
  have hchn := h.chain
  cases hrev : s.compactions.reverse with
  | nil => rw [hrev] at hmem; cases hmem
  | cons head older =>
    rw [hrev] at hmem hhead hchn
    exact ⟨head, older, rfl, hhead, hchn, hmem⟩

theorem Coherent.inActiveChain (h : Coherent s) (hc : c ∈ s.compactions) : s.InActiveChain c := by
  obtain ⟨head, older, hrev, hhead, hchn, hmem⟩ := h.newest hc
  refine ⟨head, hhead, hchn.reaches (fun d hd => ?_) hmem⟩
  exact mem_reverse.1 (hrev ▸ mem_cons_of_mem head hd)

theorem Coherent.toSequence_le (h : Coherent s) (hc : c ∈ s.compactions) :
    c.toSequence ≤ s.watermark := by
  obtain ⟨head, older, _, hhead, hchn, hmem⟩ := h.newest hc
  rw [watermark, hhead]
  exact hchn.toSequence_le hmem

theorem Coherent.activeHead_mem (h : Coherent s) (hhead : s.activeHead = some head) :
    head ∈ s.compactions := by
  rw [h.activeHead_eq] at hhead
  exact mem_reverse.1 (mem_of_mem_head? hhead)

theorem Coherent.activeHead_unsuperseded (h : Coherent s) (hhead : s.activeHead = some head)
    (hc : c ∈ s.compactions) : c.supersedesCompactionID ≠ some head.id := by
  intro hsup
  have hids : (s.compactions.reverse.map (·.id)).Nodup := by
    rw [map_reverse]
    exact nodup_reverse.2 h.compactionIDs
  obtain ⟨newest, older, hrev, hnew, hchn, hmem⟩ := h.newest hc
  rw [hnew] at hhead
  cases hhead
  rw [hrev] at hids
  obtain ⟨d, hd, hid⟩ := hchn.older_of_supersedes hmem hsup
  exact (nodup_cons.1 hids).1 (mem_map.2 ⟨d, hd, hid⟩)

end ActiveHead

/-! ## Changes -/

section Changes
variable {s s' : Tables}

theorem Tables.HasRow.append {count : Int} {rows : List Message} (h : s.HasRow id sequence) :
    { s with messages := s.messages ++ rows, messageCount := count }.HasRow id sequence := by
  obtain ⟨m, hm, heq⟩ := h
  exact ⟨m, mem_append_left _ hm, heq⟩

theorem Tables.HasRow.map (h : s.HasRow id sequence)
    (hf : ∀ m, (f m).id = m.id ∧ (f m).sequence = m.sequence) :
    { s with messages := s.messages.map f }.HasRow id sequence := by
  obtain ⟨m, hm, hid, hseq⟩ := h
  exact ⟨f m, mem_map_of_mem hm, (hf m).1.trans hid, (hf m).2.trans hseq⟩

theorem activeHead_congr (h : s'.compactions = s.compactions) : s'.activeHead = s.activeHead := by
  rw [activeHead, unsuperseded, h]
  rfl

theorem Coherent.same (hs : Coherent s) (h : SameTranscript s s') : Coherent s' where
  numbered := h.messages ▸ hs.numbered
  count := by rw [h.messageCount, h.messages]; exact hs.count
  ids := h.messages ▸ hs.ids
  turnIDs := h.turns ▸ hs.turnIDs
  owned := by rw [h.messages, h.turns]; exact hs.owned
  chain := h.compactions ▸ hs.chain
  compactionIDs := h.compactions ▸ hs.compactionIDs
  assigned := by rw [h.messages, h.compactions]; exact hs.assigned
  ends := by
    unfold HasRow
    rw [h.messages, h.compactions]
    exact hs.ends
  counts := h.compactions ▸ hs.counts

theorem Coherent.openTurn (hs : Coherent s) {turn : Turn} (fresh : ∀ t ∈ s.turns, t.id ≠ turn.id) :
    Coherent { s with turns := s.turns ++ [turn] } :=
  { hs with
    turnIDs := by
      show ((s.turns ++ [turn]).map (·.id)).Nodup
      exact nodup_snoc hs.turnIDs fresh
    owned := fun m hm => by
      obtain ⟨t, ht, hid⟩ := hs.owned m hm
      exact ⟨t, mem_append_left _ ht, hid⟩ }

theorem Tables.map_id_updateTurn (s : Tables) (turnID : UUID) {f : Turn → Turn}
    (keeps : ∀ t, (f t).id = t.id) :
    (s.updateTurn turnID f).turns.map (·.id) = s.turns.map (·.id) := by
  show (s.turns.map _).map _ = _
  rw [map_map]
  refine map_congr_left fun t _ => ?_
  show (if t.id == turnID then f t else t).id = t.id
  split
  · exact keeps t
  · rfl

theorem Coherent.updateTurn (hs : Coherent s) (turnID : UUID) {f : Turn → Turn}
    (keeps : ∀ t, (f t).id = t.id) : Coherent (s.updateTurn turnID f) :=
  { hs with
    turnIDs := by
      rw [s.map_id_updateTurn turnID keeps]
      exact hs.turnIDs
    owned := fun m hm => mem_updateTurn (hs.owned m hm) turnID f keeps }

theorem Coherent.append (hs : Coherent s) {turnID : UUID} {rows : List Message}
    (h : Appendable s turnID rows) :
    Coherent { s with messages := s.messages ++ rows
                      messageCount := s.messageCount + rows.length } :=
  { hs with
    numbered := by
      refine numbered_append.2 ⟨hs.numbered, ?_⟩
      have := h.numbered
      rwa [hs.count, ← Int.zero_add (s.messages.length : Int)] at this
    count := by
      show s.messageCount + rows.length = ((s.messages ++ rows).length : Nat)
      rw [hs.count, length_append, Int.natCast_add]
    ids := by
      show ((s.messages ++ rows).map (·.id)).Nodup
      rw [map_append, nodup_append]
      refine ⟨hs.ids, h.ids, fun id hid id' hid' => ?_⟩
      obtain ⟨m, hm, rfl⟩ := mem_map.1 hid
      obtain ⟨row, hrow, rfl⟩ := mem_map.1 hid'
      exact h.fresh row hrow m hm
    owned := fun m hm => by
      rcases mem_append.1 hm with hm | hm
      · exact hs.owned m hm
      · obtain ⟨t, ht, hid⟩ := h.turn
        exact ⟨t, ht, hid.trans (h.turnIDs m hm).symm⟩
    assigned := fun m hm id hid => by
      rcases mem_append.1 hm with hm | hm
      · exact hs.assigned m hm id hid
      · rw [h.unassigned m hm] at hid
        cases hid
    ends := fun c hc => ⟨(hs.ends c hc).1.append, (hs.ends c hc).2.append⟩ }

theorem Coherent.rewrite (hs : Coherent s) (same : ∀ m, SameRow m (f m)) :
    Coherent { s with messages := s.messages.map f } :=
  { hs with
    numbered := hs.numbered.map fun m => (same m).sequence
    count := by
      show s.messageCount = ((s.messages.map f).length : Nat)
      rw [length_map]
      exact hs.count
    ids := by
      show ((s.messages.map f).map (·.id)).Nodup
      have hid : s.messages.map ((·.id) ∘ f) = s.messages.map (·.id) :=
        map_congr_left fun m _ => (same m).id
      rw [map_map, hid]
      exact hs.ids
    owned := fun m hm => by
      obtain ⟨m', hm', rfl⟩ := mem_map.1 hm
      rw [(same m').turnID]
      exact hs.owned m' hm'
    assigned := fun m hm id hid => by
      obtain ⟨m', hm', rfl⟩ := mem_map.1 hm
      rw [(same m').compactionID] at hid
      rw [(same m').sequence]
      exact hs.assigned m' hm' id hid
    ends := fun c hc =>
      have hf : ∀ m, (f m).id = m.id ∧ (f m).sequence = m.sequence :=
        fun m => ⟨(same m).id, (same m).sequence⟩
      ⟨(hs.ends c hc).1.map hf, (hs.ends c hc).2.map hf⟩ }

theorem Coherent.change (hs : Coherent s) (h : Change s s') : Coherent s' := by
  cases h with
  | aside _ same => exact hs.same same
  | openTurn turn fresh => exact hs.openTurn fresh
  | resumeTurn turnID f keeps => exact hs.updateTurn turnID keeps
  | write _ written =>
    cases written with
    | updateTurn turnID f keeps => exact hs.updateTurn turnID fun t => (keeps t).1
    | append turnID rows appendable => exact hs.append appendable
    | rewrite f same => exact hs.rewrite same

end Changes

/-! ## A stored compaction -/

section Stored
variable {cfg : Config} {s : Tables} {input : CompactionInput}

theorem normalizeCompactionInput_ok (h : normalizeCompactionInput input = .ok normalized) :
    normalized = directBounds input ∧ 0 < input.fromSequence ∧
      input.fromSequence ≤ input.toSequence ∧
      normalized.fromSequence ≤ normalized.directFromSequence ∧
      normalized.directFromSequence ≤ normalized.directToSequence ∧
      normalized.directToSequence ≤ normalized.toSequence := by
  obtain ⟨hbds, h⟩ := of_check h
  obtain ⟨hdir, h⟩ := of_check h
  cases h
  exact ⟨rfl, by omega, by omega, by omega, by omega, by omega⟩

/-- What the checks of a compaction found out about the row it stores. -/
structure Checked (s : Tables) (input : CompactionInput) : Prop where
  bounds : input.fromSequence ≤ input.directFromSequence ∧
    input.directFromSequence ≤ input.directToSequence
  last : input.directToSequence = input.toSequence
  supersedes : input.supersedesCompactionID = s.activeHead.map (·.id)
  after : s.watermark < input.directFromSequence
  skips : ∀ m ∈ s.messages, s.hasEnded m → s.watermark < m.sequence →
    input.directFromSequence ≤ m.sequence
  ends : s.HasRow input.fromMessageID input.fromSequence ∧
    s.HasRow input.toMessageID input.toSequence
  counts : 1 ≤ input.sourceMessageCount ∧ input.fromSequence ≤ input.toSequence

theorem Tables.validateCompactionBoundary_ok
    (h : s.validateCompactionBoundary messageID sequence = .ok u) :
    s.HasRow messageID sequence := by
  rw [validateCompactionBoundary] at h
  split at h
  · cases h
  rename_i m hm
  obtain ⟨hseq, h⟩ := of_check h
  have hid := find?_some hm
  exact ⟨m, mem_of_find?_eq_some hm, beq_iff_eq.1 hid, not_not.1 hseq⟩

theorem Tables.validateCompactionChain_ok {priorCount afterSequence : Int}
    (h : s.validateCompactionChain input = .ok (priorCount, afterSequence)) :
    input.supersedesCompactionID = s.activeHead.map (·.id) ∧
      input.directToSequence = input.toSequence ∧
      priorCount = (s.activeHead.map (·.sourceMessageCount)).getD 0 ∧ afterSequence = s.watermark ∧
      (s.watermark < input.directFromSequence ∧
          (s.activeHead.map fun head => (head.fromMessageID, head.fromSequence)) =
            some (input.fromMessageID, input.fromSequence) ∨
        s.activeHead = none ∧ input.directFromSequence = input.fromSequence) := by
  rw [validateCompactionChain] at h
  rw [watermark]
  split at h
  next hnone =>
    obtain ⟨hfst, h⟩ := of_check h
    cases h
    obtain ⟨hsup, hfst⟩ := not_or.1 hfst
    obtain ⟨hfrom, hto⟩ := not_or.1 hfst
    rw [hnone]
    exact ⟨not_not.1 hsup, not_not.1 hto, rfl, rfl, .inr ⟨rfl, not_not.1 hfrom⟩⟩
  next head hhead =>
    obtain ⟨hpred, h⟩ := of_check h
    cases h
    rw [hhead]
    simp only [invalidCompactionPredecessor, Bool.or_eq_true, bne_iff_ne, ne_eq, decide_eq_true_iff,
      not_or, not_not, not_le] at hpred
    obtain ⟨⟨⟨⟨hsup, hfrom⟩, hseq⟩, haft⟩, hto⟩ := hpred
    exact ⟨hsup, hto, rfl, rfl, .inl ⟨haft, by rw [hfrom, hseq]; rfl⟩⟩

theorem Tables.validateCompactionPrefix_ok {afterSequence beforeSequence : Int}
    (h : s.validateCompactionPrefix afterSequence beforeSequence = .ok u) (hm : m ∈ s.messages)
    (hend : s.hasEnded m) (haft : afterSequence < m.sequence) : beforeSequence ≤ m.sequence := by
  obtain ⟨hzero, h⟩ := of_check h
  have hnone := countP_eq_zero.1 (not_not.1 hzero) m hm
  simp only [hend, Bool.true_and, Bool.and_eq_true, decide_eq_true_iff, not_and, not_lt] at hnone
  exact hnone haft

theorem Tables.validatedCompactionIDs_ok {messages : List Message}
    (h : s.validatedCompactionIDs messages = .ok ids) : ids = messages.map (·.id) := by
  induction messages generalizing ids with
  | nil => cases h; rfl
  | cons m messages ih =>
    obtain ⟨_, _, h⟩ := of_bind h
    obtain ⟨rest, hrest, h⟩ := of_bind h
    cases h
    rw [ih hrest, map_cons]

theorem Tables.insertCompaction_ok (h : s.insertCompaction compaction = .ok s') :
    s' = { s with compactions := s.compactions ++ [compaction] } ∧
      ∀ c ∈ s.compactions, c.id ≠ compaction.id := by
  obtain ⟨hnone, h⟩ := of_check h
  cases h
  have hkeys := any_eq_false.1 (Bool.eq_false_of_not_eq_true hnone)
  refine ⟨rfl, fun c hc hid => hkeys c hc ?_⟩
  rw [hid, beq_self_eq_true, Bool.true_or]

/-- The rows a compaction covers directly. -/
def Tables.directRows (s : Tables) (input : CompactionInput) : List Message :=
  s.completedHistoryRange input.directFromSequence input.directToSequence

theorem Tables.mem_directRows : m ∈ s.directRows input ↔ m ∈ s.messages ∧
    s.hasEnded m ∧ input.directFromSequence ≤ m.sequence ∧
    m.sequence ≤ input.directToSequence := by
  rw [directRows, completedHistoryRange, mem_sortBySequence, mem_filter,
    Bool.and_eq_true, Bool.and_eq_true, decide_eq_true_iff, decide_eq_true_iff]

theorem Tables.validateCompactionHistory_ok
    (hbds : 0 < input.fromSequence ∧ input.fromSequence ≤ input.directFromSequence ∧
      input.directFromSequence ≤ input.directToSequence)
    (hcs : 1 ≤ input.sourceMessageCount ∧ input.fromSequence ≤ input.toSequence)
    (h : s.validateCompactionHistory input = .ok ids) :
    Checked s input ∧ ids = (s.directRows input).map (·.id) := by
  obtain ⟨_, hfrom, h⟩ := of_bind h
  obtain ⟨_, hto, h⟩ := of_bind h
  obtain ⟨⟨priorCount, afterSequence⟩, hchn, h⟩ := of_bind h
  obtain ⟨_, hskips, h⟩ := of_bind h
  obtain ⟨messages, hread, h⟩ := of_bind h
  obtain ⟨_, _, h⟩ := of_bind h
  obtain ⟨_, _, h⟩ := of_bind h
  obtain ⟨hsup, hlast, _, rfl, haft⟩ := validateCompactionChain_ok hchn
  have hrows : messages = s.directRows input := by
    obtain ⟨_, hread⟩ := of_check hread
    cases hread; rfl
  subst hrows
  have haft : s.watermark < input.directFromSequence := by
    rcases haft with ⟨haft, _⟩ | ⟨hnone, _⟩
    · exact haft
    · rw [watermark, hnone]
      show (0 : Int) < _
      omega
  refine ⟨⟨hbds.2, hlast, hsup, haft, ?_, ?_, hcs⟩, validatedCompactionIDs_ok h⟩
  · intro m hm hend hbey
    exact validateCompactionPrefix_ok hskips hm hend hbey
  · exact ⟨validateCompactionBoundary_ok hfrom, validateCompactionBoundary_ok hto⟩

theorem one_le_sourceMessageCount
    (h : ¬ (invalidCompactionIdentity input activityID || invalidCompactionMetadata input) = true) :
    1 ≤ input.sourceMessageCount := by
  simp only [invalidCompactionMetadata, Bool.or_eq_true, decide_eq_true_iff, not_or] at h
  omega

/-- The tables with a compaction stored: the row, and its id in the rows it covers directly. -/
def Tables.withCompaction (cfg : Config) (s : Tables) (input : CompactionInput) : Tables :=
  assignCompaction { s with compactions := s.compactions ++ [compactionRecord cfg input] }
    ((s.directRows input).map fun m => m.id) input.id

theorem Tables.saveActivityCompaction_ok
    (h : saveActivityCompaction cfg s activityID input = .ok s') :
    ∃ normalized, normalized = directBounds { input with id := activityID } ∧
      Checked s normalized ∧ (∃ ids, s.validateCompactionHistory normalized = .ok ids) ∧
      (∀ c ∈ s.compactions, c.id ≠ activityID) ∧ s' = withCompaction cfg s normalized := by
  obtain ⟨normalized, hnorm, h⟩ := of_bind h
  obtain ⟨ids, hids, h⟩ := of_bind h
  obtain ⟨hmeta, hnorm⟩ := of_check hnorm
  split at hnorm
  · cases hnorm
  obtain ⟨heq, hfrom, hto, hdir, hbds, _⟩ := normalizeCompactionInput_ok hnorm
  have hfrom : 0 < normalized.fromSequence := by rw [heq]; exact hfrom
  have hcs : 1 ≤ normalized.sourceMessageCount ∧
      normalized.fromSequence ≤ normalized.toSequence := by
    have hct := one_le_sourceMessageCount hmeta
    rw [heq]
    exact ⟨hct, hto⟩
  obtain ⟨hchk, rfl⟩ := validateCompactionHistory_ok ⟨hfrom, hdir, hbds⟩ hcs hids
  obtain ⟨_, h⟩ := of_check h
  obtain ⟨t, ht, h⟩ := of_bind h
  obtain ⟨rfl, hfr⟩ := insertCompaction_ok ht
  split at h
  · cases h
  cases h
  refine ⟨normalized, heq, hchk, ⟨_, hids⟩, fun c hc => ?_, rfl⟩
  have hid : (compactionRecord cfg normalized).id = activityID := by rw [heq]; rfl
  exact hid ▸ hfr c hc

def assignedRow (ids : List UUID) (compactionID : UUID) (m : Message) : Message :=
  if ids.contains m.id && m.compactionID == none then { m with compactionID := some compactionID }
  else m

theorem assignedRow_same (ids : List UUID) (compactionID : UUID) (m : Message) :
    (assignedRow ids compactionID m).id = m.id ∧
      (assignedRow ids compactionID m).turnID = m.turnID ∧
      (assignedRow ids compactionID m).sequence = m.sequence := by
  rw [assignedRow]
  split <;> exact ⟨rfl, rfl, rfl⟩

theorem Tables.withCompaction_messages (cfg : Config) (s : Tables) (input : CompactionInput) :
    (withCompaction cfg s input).messages =
      s.messages.map (assignedRow ((s.directRows input).map (·.id)) input.id) := rfl

theorem Tables.mem_withCompaction (h : m ∈ (withCompaction cfg s input).messages) :
    ∃ m' ∈ s.messages,
      m = assignedRow ((s.directRows input).map (·.id)) input.id m' := by
  obtain ⟨m', hm', heq⟩ := mem_map.1 h
  exact ⟨m', hm', heq.symm⟩

theorem Tables.HasRow.withCompaction (h : s.HasRow id sequence) :
    (withCompaction cfg s input).HasRow id sequence :=
  h.map fun m => ⟨(assignedRow_same _ _ m).1, (assignedRow_same _ _ m).2.2⟩

/-- **A stored compaction keeps the transcript coherent.** -/
theorem Coherent.withCompaction (hs : Coherent s) (hchk : Checked s input)
    (hfr : ∀ c ∈ s.compactions, c.id ≠ input.id) : Coherent (withCompaction cfg s input) where
  numbered := hs.numbered.map fun m => (assignedRow_same _ _ m).2.2
  count := by
    rw [withCompaction_messages, length_map]
    exact hs.count
  ids := by
    rw [withCompaction_messages, map_map]
    have hid : s.messages.map ((·.id) ∘ assignedRow ((s.directRows input).map (·.id)) input.id) =
        s.messages.map (·.id) := map_congr_left fun m _ => (assignedRow_same _ _ m).1
    rw [hid]
    exact hs.ids
  turnIDs := hs.turnIDs
  owned := fun m hm => by
    obtain ⟨m', hm', rfl⟩ := mem_withCompaction hm
    rw [(assignedRow_same _ _ m').2.1]
    exact hs.owned m' hm'
  chain := by
    show Chain (s.compactions ++ [compactionRecord cfg input]).reverse
    rw [reverse_append]
    show Chain (compactionRecord cfg input :: s.compactions.reverse)
    refine ⟨?_, ?_, hs.chain⟩
    · rw [← hs.activeHead_eq]
      exact hchk.supersedes
    · rw [← hs.activeHead_eq]
      have := hchk.after
      have := hchk.bounds.2
      have := hchk.last
      show s.watermark < input.toSequence
      omega
  compactionIDs := by
    show ((s.compactions ++ [compactionRecord cfg input]).map (·.id)).Nodup
    exact nodup_snoc hs.compactionIDs hfr
  assigned := fun m hm id hid => by
    obtain ⟨m', hm', rfl⟩ := mem_withCompaction hm
    rw [assignedRow] at hid
    rw [(assignedRow_same _ _ m').2.2]
    split at hid
    next hassigned =>
      cases hid
      refine ⟨compactionRecord cfg input, mem_concat_self, rfl, ?_⟩
      -- the assigned row has the id of one that is covered directly, so it is that row
      have hmem := contains_iff_mem.1 (Bool.and_eq_true_iff.1 hassigned).1
      obtain ⟨row, hrow, hrowID⟩ := mem_map.1 hmem
      obtain ⟨hrowMem, _, hge, hle⟩ := mem_directRows.1 hrow
      rw [inj_on_of_nodup_map hs.ids hrowMem hm' hrowID] at hge hle
      exact ⟨Int.le_trans hchk.bounds.1 hge, Int.le_trans hle (Int.le_of_eq hchk.last)⟩
    · obtain ⟨c, hc, heq⟩ := hs.assigned m' hm' id hid
      exact ⟨c, mem_append_left _ hc, heq⟩
  ends := fun c hc => by
    rcases mem_snoc.1 hc with hc | hc
    · exact ⟨(hs.ends c hc).1.withCompaction, (hs.ends c hc).2.withCompaction⟩
    · obtain rfl := hc
      exact ⟨hchk.ends.1.withCompaction, hchk.ends.2.withCompaction⟩
  counts := fun c hc => by
    rcases mem_snoc.1 hc with hc | hc
    · exact hs.counts c hc
    · obtain rfl := hc
      exact hchk.counts

end Stored

end Peen.Sessions
