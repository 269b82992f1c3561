import Peen.Agent.Compaction
import Peen.Session.SessionRuns

/-!
# Chains of compactions

One compactor serves one turn, and may compact several times in it.
-/

namespace Peen.Compactions

open Lts List ReconstructionPlan

/-- A row the sink stored. -/
structure StoredRow where
  id : UUID
  input : CompactionInput

/-- The compactor, the messages of the turn's last request, and the rows stored so far. -/
structure World where
  compactor : Compactor
  messages : List Elelem.Message
  rows : List StoredRow

abbrev World.plan (w : World) : ReconstructionPlan := w.compactor.plan

/-- A request that exceeds its budget: what the call meets, and what the turn appended before. -/
structure Round where
  call : CompactionCall
  grown : List Elelem.Message
  estimatedTokens : Int
  budgetTokens : Int
  round : Nat

/-- A round in which `handle` stored a summary. -/
def step (w : World) (r : Round) : Option World :=
  match r.call.handle w.compactor
      ⟨w.messages ++ r.grown, r.estimatedTokens, r.budgetTokens, r.round⟩ with
  | (.compacted input head, c, event) => some ⟨c, event.messages, w.rows ++ [⟨head.id, input⟩]⟩
  | (.dropped, _, _) | (.failed _, _, _) => none

/-- A round that works on the plan the compactor holds: it rereads none, or that one. -/
def KeepsPlan (w : World) (r : Round) : Prop :=
  r.call.refresh = none ∨ r.call.refresh = some (.ok (w.plan, w.compactor.active))

/-! ## Chains of rows -/

def lastID (active : Option CompactionHead) (rows : List StoredRow) : Option UUID :=
  match rows.getLast? with
  | some row => some row.id
  | none => active.map CompactionHead.id

/-- The sequence all rows start at: that of the summary the turn started with, or of its first
unit. -/
def chainStart (plan : ReconstructionPlan) (active : Option CompactionHead) : Option Int :=
  match active with
  | some head => some head.fromSequence
  | none => plan.units[0]?.map ReconstructionUnit.fromSequence

/-- How many messages the summary the turn started with replaced. -/
def countBefore (active : Option CompactionHead) : Int :=
  match active with
  | some head => head.sourceMessageCount
  | none => 0

/-- A row that covers the units from `m` up to `n` behind the rows before it. -/
structure NextRow (plan : ReconstructionPlan) (active : Option CompactionHead)
    (rows : List StoredRow) (m n : Nat) (row : StoredRow) : Prop where
  range : m < n
  direct : ∃ first last, plan.units[m]? = some first ∧ plan.units[n - 1]? = some last ∧
    row.input.directFromSequence = first.fromSequence ∧
    row.input.directToSequence = last.toSequence ∧ row.input.toSequence = last.toSequence ∧
    row.input.toMessageID = last.toMessageID
  start : chainStart plan active = some row.input.fromSequence
  count : row.input.sourceMessageCount =
    countBefore active + (messageCount (plan.units.take n) : Nat)
  supersedes : row.input.supersedesCompactionID = lastID active rows

/-- Rows that cover the first `n` units, each right behind the one before it. -/
inductive Chain (plan : ReconstructionPlan) (active : Option CompactionHead) :
    List StoredRow → Nat → Prop
  | nil : Chain plan active [] 0
  | snoc {rows : List StoredRow} {row : StoredRow} {m n : Nat} :
    Chain plan active rows m → NextRow plan active rows m n row → Chain plan active (rows ++ [row]) n

section
variable {n : Nat}

theorem Chain.start (h : Chain plan active rows n) :
    ∀ row ∈ rows, chainStart plan active = some row.input.fromSequence := by
  induction h with
  | nil => exact nofun
  | snoc _ hnext ih =>
    intro row hrow
    rcases mem_append.mp hrow with hrow | hrow
    · exact ih row hrow
    · rw [mem_singleton.mp hrow]
      exact hnext.start

theorem Chain.ends (h : Chain plan active rows n) :
    ∀ row ∈ rows, ∃ k unit, k < n ∧ plan.units[k]? = some unit ∧
      row.input.directToSequence = unit.toSequence := by
  induction h with
  | nil => exact nofun
  | snoc _ hnext ih =>
    intro row hrow
    have hrange := hnext.range
    rcases mem_append.mp hrow with hrow | hrow
    · obtain ⟨k, unit, hk, hunit, hto⟩ := ih row hrow
      exact ⟨k, unit, by omega, hunit, hto⟩
    · obtain ⟨-, last, -, hlast, -, hto, -⟩ := hnext.direct
      rw [mem_singleton.mp hrow]
      exact ⟨_, last, by omega, hlast, hto⟩

/-- **The direct ranges of a chain over ascending units ascend and are disjoint.** -/
theorem Chain.ascending (h : Chain plan active rows n) (hunits : Ascending plan.units) :
    (∀ row ∈ rows, row.input.directFromSequence ≤ row.input.directToSequence) ∧
      rows.Pairwise fun a b => a.input.directToSequence < b.input.directFromSequence := by
  induction h with
  | nil => exact ⟨nofun, Pairwise.nil⟩
  | @snoc rows row m n hchn hnext ih =>
    obtain ⟨first, last, hfst, hlast, hfrom, hto, -⟩ := hnext.direct
    have hrange := hnext.range
    refine ⟨fun other hoth => ?_, pairwise_append.mpr ⟨ih.2, pairwise_singleton _ _, ?_⟩⟩
    · rcases mem_append.mp hoth with hoth | hoth
      · exact ih.1 other hoth
      · rw [mem_singleton.mp hoth, hfrom, hto]
        exact hunits.from_le_to (by omega) hfst hlast
    · intro before hbef other hoth
      obtain ⟨k, unit, hk, hunit, hend⟩ := hchn.ends before hbef
      rw [mem_singleton.mp hoth, hfrom, hend]
      exact hunits.lt hk hunit hfst

end

/-! ## Where a turn stands -/

/-- The index behind the messages of the first `n` units. -/
def cut (w : World) (n : Nat) : Nat := w.plan.leadCount + messageCount (w.plan.units.take n)

/-- After some rounds: the first `n` units are covered, the turn appended `grown`, and the last
summary is `text`. Every unit was replaced whole or is there whole, so no result is left without its
reply. -/
structure Chained (w0 w : World) (n : Nat) (grown : List Elelem.Message) (text : String) : Prop where
  covered : 0 < n ∧ n < w0.plan.units.length
  transcript : w.messages = w0.messages.take w0.plan.summaryStart ++
    compactionSummaryMessage (compactionSummaryLead ++ text) :: (w0.messages.drop (cut w0 n) ++ grown)
  notEmpty : text ≠ ""
  plan : w.plan = ⟨w0.plan.summaryStart + 1, true, w0.plan.units.drop n⟩
  verified : w.plan.verify w.messages = .ok ()
  chain : Chain w0.plan w0.compactor.active w.rows n
  whole : ∀ j unit, w0.plan.units[j]? = some unit →
    (j < n ∧ cut w0 j + unit.messageCount ≤ cut w0 n) ∨
    (n ≤ j ∧ (w.messages.drop (w0.plan.summaryStart + 1 + (cut w0 j - cut w0 n))).take
        unit.messageCount = (w0.messages.drop (cut w0 j)).take unit.messageCount)

theorem compactionInput_spec {c : Compactor} {units : Nat} {text : String}
    {summary : CompactionSummary} {input : CompactionInput}
    (h : c.compactionInput units text summary = some input)
    (hunits : 1 ≤ units ∧ units ≤ c.plan.units.length) :
    ∃ first last, c.plan.units[0]? = some first ∧ c.plan.units[units - 1]? = some last ∧
      input.directFromSequence = first.fromSequence ∧
      input.directToSequence = last.toSequence ∧ input.toSequence = last.toSequence ∧
      input.toMessageID = last.toMessageID ∧
      chainStart c.plan c.active = some input.fromSequence ∧
      input.sourceMessageCount =
        countBefore c.active + (messageCount (c.plan.units.take units) : Nat) ∧
      input.supersedesCompactionID = c.active.map CompactionHead.id := by
  have hhead : (c.plan.units.take units).head? = c.plan.units[0]? := by
    rw [head?_take, if_neg (by omega), head?_eq_getElem?]
  have hlast : (c.plan.units.take units).getLast? = c.plan.units[units - 1]? := by
    rw [getLast?_eq_getElem?, length_take, Nat.min_eq_left hunits.2, getElem?_take_of_lt (by omega)]
  rw [Compactor.compactionInput, hhead, hlast] at h
  obtain ⟨first, hfst, h⟩ := Option.bind_eq_some_iff.mp h
  obtain ⟨last, hlast, h⟩ := Option.bind_eq_some_iff.mp h
  refine ⟨first, last, hfst, hlast, ?_⟩
  cases hact : c.active with
  | none =>
    simp only [hact] at h
    cases h
    refine ⟨rfl, rfl, rfl, rfl, ?_, ?_, rfl⟩
    · rw [chainStart, hfst]
      rfl
    · exact (Int.zero_add _).symm
  | some =>
    simp only [hact] at h
    cases h
    exact ⟨rfl, rfl, rfl, rfl, rfl, Int.add_comm _ _, rfl⟩

/-- Where a turn stands between rounds, read against where it started: the messages before the
summary's place and behind the covered units, and the chain head. -/
structure Standing (w0 w : World) (n : Nat) (grown : List Elelem.Message) : Prop where
  start : w.plan.summaryStart = w0.plan.summaryStart
  units : w.plan.units = w0.plan.units.drop n
  lead : w.messages.take w0.plan.summaryStart = w0.messages.take w0.plan.summaryStart
  tail : w.messages.drop w.plan.leadCount = w0.messages.drop (cut w0 n) ++ grown
  room : w.plan.units = [] ∨ w.plan.leadCount ≤ w.messages.length
  chain : Chain w0.plan w0.compactor.active w.rows n
  id : w.compactor.active.map CompactionHead.id = lastID w0.compactor.active w.rows
  from_ : chainStart w.plan w.compactor.active = chainStart w0.plan w0.compactor.active
  count : countBefore w.compactor.active =
    countBefore w0.compactor.active + (messageCount (w0.plan.units.take n) : Nat)

section
variable {w0 : World} {n : Nat}

theorem reloadPlan_keeps (h : KeepsPlan w r) : r.call.reloadPlan w.compactor = .ok w.compactor := by
  rw [CompactionCall.reloadPlan]
  rcases h with h | h
  · rw [h]
  · rw [h]

theorem step_compacted (h : step w r = some w') (hkeeps : KeepsPlan w r) :
    ∃ input head, w'.rows = w.rows ++ [⟨head.id, input⟩] ∧
      r.call.Compacted w.compactor (w.messages ++ r.grown) input head w'.compactor w'.messages := by
  rw [step] at h
  split at h
  next input head c event hhandle =>
    obtain ⟨reloaded, hreloaded, hcpt⟩ := CompactionCall.handle_compacted hhandle
    rw [reloadPlan_keeps hkeeps] at hreloaded
    cases hreloaded
    cases h
    exact ⟨input, head, rfl, hcpt⟩
  · cases h
  · cases h

theorem Standing.replaced (h : Standing w0 w n grown)
    (hfits : Fits (w0.messages.drop w0.plan.leadCount) w0.plan.units)
    (hroom : w.plan.leadCount ≤ w.messages.length) (units : Nat)
    (appended : List Elelem.Message) (content : String) :
    w.compactor.replacePrefix (w.messages ++ appended) units content =
      w0.messages.take w0.plan.summaryStart ++ compactionSummaryMessage content ::
        (w0.messages.drop (cut w0 (n + units)) ++ (grown ++ appended)) := by
  have hsta : w0.plan.summaryStart ≤ w.messages.length := by
    have hle := summaryStart_le w.plan
    rw [h.start] at hle
    exact Nat.le_trans hle hroom
  have hct : messageCount ((w0.plan.units.drop n).take units) ≤
      (w0.messages.drop (cut w0 n)).length := by
    have hall := hfits.length
    have htake := messageCount_take_le w0.plan.units (n + units)
    rw [messageCount_take_add] at htake
    rw [length_drop] at hall ⊢
    rw [cut]
    omega
  rw [Compactor.replacePrefix, h.start, ReconstructionPlan.messageCount, h.units,
    take_append_of_le_length hsta, h.lead, ← drop_drop,
    drop_append_of_le_length hroom, h.tail, append_assoc,
    drop_append_of_le_length hct, drop_drop]
  rw [cut, cut, messageCount_take_add, Nat.add_assoc]

theorem whole_units (hfits : Fits (w0.messages.drop w0.plan.leadCount) w0.plan.units)
    (hlead : w0.plan.leadCount ≤ w0.messages.length) (n : Nat) (grown : List Elelem.Message)
    (summary : Elelem.Message) {j : Nat} {unit : ReconstructionUnit}
    (hunit : w0.plan.units[j]? = some unit) :
    (j < n ∧ cut w0 j + unit.messageCount ≤ cut w0 n) ∨
    (n ≤ j ∧ ((w0.messages.take w0.plan.summaryStart ++ summary ::
        (w0.messages.drop (cut w0 n) ++ grown)).drop
          (w0.plan.summaryStart + 1 + (cut w0 j - cut w0 n))).take unit.messageCount =
      (w0.messages.drop (cut w0 j)).take unit.messageCount) := by
  have hsucc := messageCount_take_succ hunit
  rcases Nat.lt_or_ge j n with hj | hj
  · have hmono := messageCount_take_mono w0.plan.units (show j + 1 ≤ n from hj)
    rw [cut, cut]
    omega
  · refine .inr ⟨hj, ?_⟩
    have hall := hfits.length
    have hle := messageCount_take_le w0.plan.units (j + 1)
    have hmono := messageCount_take_mono w0.plan.units hj
    have hsta : (w0.messages.take w0.plan.summaryStart).length = w0.plan.summaryStart := by
      rw [length_take]
      exact Nat.min_eq_left (Nat.le_trans (summaryStart_le _) hlead)
    rw [length_drop] at hall
    have hcut : cut w0 n + (cut w0 j - cut w0 n) = cut w0 j := by
      rw [cut, cut]
      omega
    have hkept : cut w0 j - cut w0 n ≤ (w0.messages.drop (cut w0 n)).length := by
      rw [length_drop, cut, cut]
      omega
    rw [Nat.add_assoc, ← drop_drop, drop_append, hsta, Nat.sub_self,
      drop_of_length_le (Nat.le_of_eq hsta), nil_append, drop_zero,
      Nat.add_comm 1, drop_succ_cons, drop_append_of_le_length hkept, drop_drop,
      hcut, take_append_of_le_length]
    rw [length_drop, cut]
    omega

theorem advanced_verified (hfits : Fits (w0.messages.drop w0.plan.leadCount) w0.plan.units)
    (hlead : w0.plan.leadCount ≤ w0.messages.length) (n : Nat) (grown : List Elelem.Message)
    (summary : Elelem.Message) : verify ⟨w0.plan.summaryStart + 1, true, w0.plan.units.drop n⟩
      (w0.messages.take w0.plan.summaryStart ++ summary ::
        (w0.messages.drop (cut w0 n) ++ grown)) = .ok () := by
  have hsta : (w0.messages.take w0.plan.summaryStart).length = w0.plan.summaryStart := by
    rw [length_take]
    exact Nat.min_eq_left (Nat.le_trans (summaryStart_le _) hlead)
  rw [verify_ok_iff]
  refine ⟨fun _ => Nat.succ_pos _, .inr ?_, ?_⟩
  · rw [length_append, hsta, length_cons]
    show w0.plan.summaryStart + 1 ≤ _
    omega
  · have htail := hfits.drop n
    rw [drop_drop] at htail
    show Fits (drop (w0.plan.summaryStart + 1) _) _
    rw [drop_append, hsta, drop_of_length_le (by omega), nil_append,
      Nat.add_sub_cancel_left, drop_succ_cons, drop_zero]
    exact htail.append grown

/-- **One round.** From where a turn stands, a round that compacts covers the next units. -/
theorem Standing.step (h : Standing w0 w n grown)
    (hver : w0.plan.verify w0.messages = .ok ()) (hkeeps : KeepsPlan w r)
    (hstep : step w r = some w') :
    ∃ n' text, Chained w0 w' n' (grown ++ r.grown) text ∧
      Standing w0 w' n' (grown ++ r.grown) := by
  obtain ⟨input, head, hrows, hcpt⟩ := step_compacted hstep hkeeps
  obtain ⟨units, text, summary, hone, hcov, htext, hinp, hplan, hmsgs⟩ :=
    hcpt.selected
  obtain ⟨-, hroom, hfits⟩ := (verify_ok_iff _ _).mp hver
  change units ≤ w.plan.coverableUnits at hcov
  have hlt := w.plan.coverableUnits_lt (Nat.lt_of_lt_of_le hone hcov)
  have hlen := hlt
  rw [h.units, length_drop] at hlen
  have hlead : w0.plan.leadCount ≤ w0.messages.length := by
    refine hroom.resolve_left fun hnil => ?_
    rw [hnil] at hlen
    exact absurd hlen (by simp)
  have hroom' : w.plan.leadCount ≤ w.messages.length := by
    refine h.room.resolve_left fun hnil => ?_
    rw [hnil] at hlt
    exact absurd hlt (by simp)
  rw [h.replaced hfits hroom'] at hmsgs
  have hadv : w'.plan = ⟨w0.plan.summaryStart + 1, true, w0.plan.units.drop (n + units)⟩ := by
    show w'.compactor.plan = _
    rw [hplan, advance, h.start, h.units, drop_drop]
  obtain ⟨first, last, hfst, hlast, hdirectFrom, hdirectTo, hto, htoID, hsta, hct,
    hsup⟩ := compactionInput_spec hinp ⟨hone, Nat.le_trans hcov (Nat.le_of_lt hlt)⟩
  obtain ⟨-, hheadFrom, hheadCount, -⟩ := r.call.sink.persist_head hcpt.stored
  rw [h.units, getElem?_drop] at hfst hlast
  rw [h.units, h.count] at hct
  have hcovered : input.sourceMessageCount = countBefore w0.compactor.active +
      (messageCount (w0.plan.units.take (n + units)) : Nat) := by
    rw [hct, messageCount_take_add]
    omega
  have hnext : NextRow w0.plan w0.compactor.active w.rows n (n + units) ⟨head.id, input⟩ := by
    refine ⟨by omega, ⟨first, last, hfst, ?_, hdirectFrom, hdirectTo, hto, htoID⟩, ?_, hcovered, ?_⟩
    · rw [← hlast]
      congr 1
      omega
    · exact h.from_.symm.trans hsta
    · exact hsup.trans h.id
  have hchn : Chain w0.plan w0.compactor.active w'.rows (n + units) := by
    rw [hrows]
    exact .snoc h.chain hnext
  have hver' := advanced_verified hfits hlead (n + units) (grown ++ r.grown)
    (compactionSummaryMessage (compactionSummaryLead ++ text))
  have hsum : (w0.messages.take w0.plan.summaryStart).length = w0.plan.summaryStart := by
    rw [length_take]
    exact Nat.min_eq_left (Nat.le_trans (summaryStart_le _) hlead)
  refine ⟨n + units, text, ⟨⟨by omega, by omega⟩, hmsgs, htext, hadv, ?_, hchn, ?_⟩, ?_⟩
  · rw [hadv, hmsgs]
    exact hver'
  · intro j unit hunit
    rw [hmsgs]
    exact whole_units hfits hlead _ _ _ hunit
  · refine ⟨?_, ?_, ?_, ?_, ?_, hchn, ?_, ?_, ?_⟩
    · rw [hadv]
      rfl
    · rw [hadv]
    · rw [hmsgs, take_append_of_le_length (Nat.le_of_eq hsum.symm), take_take, Nat.min_self]
    · rw [hadv, hmsgs]
      show drop (w0.plan.summaryStart + 1) _ = _
      rw [drop_append, hsum, drop_of_length_le (by omega), nil_append,
        Nat.add_sub_cancel_left, drop_succ_cons, drop_zero]
    · rw [hadv, hmsgs, length_append, hsum, length_cons]
      show _ ∨ w0.plan.summaryStart + 1 ≤ _
      omega
    · rw [hcpt.active, hrows, lastID, getLast?_append]
      rfl
    · rw [hcpt.active, ← h.from_, hsta, ← hheadFrom]
      rfl
    · rw [hcpt.active, ← hcovered, ← hheadCount]
      rfl

end

theorem Standing.init (w0 : World) (hrows : w0.rows = [])
    (hver : w0.plan.verify w0.messages = .ok ()) : Standing w0 w0 0 [] := by
  obtain ⟨-, hroom, -⟩ := (verify_ok_iff _ _).mp hver
  refine ⟨rfl, rfl, rfl, ?_, hroom, ?_, ?_, rfl, ?_⟩
  · rw [append_nil]
    rfl
  · rw [hrows]
    exact .nil
  · rw [hrows]
    rfl
  · exact (Int.add_zero _).symm

/-! ## Whole turns -/

/-- **Compactions of one turn form a chain.** From a plan that verifies, after every round that
compacts the messages are the lead, one summary and the rest; the plan verifies against them; the
rows form a chain over the units the turn started with, all starting where the first does; over
ascending units their direct ranges ascend and are disjoint; and units stay whole. -/
theorem compactions_chain (w0 : World) (hrows : w0.rows = [])
    (hverified : w0.plan.verify w0.messages = .ok ()) (rounds : List Round)
    (hkeeps : Along step KeepsPlan w0 rounds) :
    Always step (fun w => w = w0 ∨ (∃ n grown text, Chained w0 w n grown text) ∧
      (∀ first ∈ w.rows.head?, ∀ row ∈ w.rows,
        row.input.fromSequence = first.input.fromSequence) ∧
      (Ascending w0.plan.units →
        (∀ row ∈ w.rows, row.input.directFromSequence ≤ row.input.directToSequence) ∧
        w.rows.Pairwise fun a b => a.input.directToSequence < b.input.directFromSequence))
      w0 rounds := by
  have hinv : Always step (fun w => ∃ n grown, Standing w0 w n grown ∧
      (w = w0 ∨ ∃ text, Chained w0 w n grown text)) w0 rounds := by
    refine always_of_along ?_ ⟨0, [], .init w0 hrows hverified, .inl rfl⟩ hkeeps
    intro w r w' h hround hstep
    obtain ⟨n, grown, hstanding, -⟩ := h
    obtain ⟨n', text, hchained, hstanding'⟩ := hstanding.step hverified hround hstep
    exact ⟨n', grown ++ r.grown, hstanding', .inr ⟨text, hchained⟩⟩
  refine hinv.mono fun w h => ?_
  obtain ⟨n, grown, -, rfl | ⟨text, hchained⟩⟩ := h
  · exact .inl rfl
  · refine .inr ⟨⟨n, grown, text, hchained⟩, fun first hfirst row hrow => ?_, ?_⟩
    · have hstart := hchained.chain.start row hrow
      rw [hchained.chain.start first (mem_of_head? hfirst)] at hstart
      exact (Option.some.inj hstart).symm
    · exact fun hunits => hchained.chain.ascending hunits

def plain (role : Elelem.Role) : Elelem.Message := ⟨role, [.text "…"], [], "", false, "", none, .seed⟩

/-- Three earlier turns behind a system message; the first ends with a reply and its result. -/
def longTurn : World where
  compactor := {
    plan := ⟨1, false, [⟨11, 11, 1, 1, 1, 1, [.user]⟩, ⟨12, 13, 2, 3, 1, 2, [.assistant, .tool]⟩,
      ⟨14, 14, 4, 4, 2, 1, [.user]⟩, ⟨15, 15, 5, 5, 3, 1, [.user]⟩]⟩
    active := none
    room := 0
    maxOutputTokens := 1
    promptHash := "hash"
    workspace := "/work" }
  messages := [plain .system, plain .user, plain .assistant, plain .tool, plain .user, plain .user]
  rows := []

/-- The messages of the earlier turns, as they are stored. -/
def storedTurns : Sessions.Tables :=
  { Sessions.Tables.empty with
    turns := [⟨21, 22, "/work", .completed, false, "", 0⟩]
    messages := [11, 12, 13, 14, 15].map fun id =>
      ⟨id, 1, 21, id - 10, .user, "…", "", "", none, "", none, false, false, none⟩ }

/-- A round that counts messages as tokens, and stores a row under this id. -/
def countingRound (newID : UUID) (grown : List Elelem.Message) : Round where
  call := {
    refresh := none
    selector := .source fun messages => .ok messages.length
    count := fun messages => .ok messages.length
    hook := fun _ _ => .ok ()
    summarize := fun _ => .ok ⟨" They fixed it.\n", "model", 10, 4⟩
    sink := sessionCompactionSink Sessions.plainConfig storedTurns newID
    dropOldestUnits := fun event => (.ok (), event) }
  grown := grown
  estimatedTokens := 6
  budgetTokens := 5
  round := 1

def twoRounds : List Round := [countingRound 103 [], countingRound 104 [plain .assistant]]

/-- The second row supersedes the first one and covers the unit behind it. -/
theorem compactions_chain_twice :
    (exec step longTurn twoRounds).map (fun w =>
        w.rows.map fun row => (row.id, row.input.directFromSequence, row.input.directToSequence,
          row.input.sourceMessageCount, row.input.supersedesCompactionID)) =
      some [(103, 1, 3, 3, none), (104, 4, 4, 4, some 103)] ∧
    Always step (fun w => w = longTurn ∨ ∃ n grown text, Chained longTurn w n grown text) longTurn
      twoRounds := by
  refine ⟨rfl, ?_⟩
  have hkeeps : Along step KeepsPlan longTurn twoRounds :=
    fun _ _ => ⟨.inl rfl, fun _ _ => ⟨.inl rfl, trivial⟩⟩
  refine (compactions_chain longTurn rfl rfl _ hkeeps).mono fun w h => ?_
  exact h.imp_right fun h => h.1

end Peen.Compactions
