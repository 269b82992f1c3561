import Mathlib.Data.Finset.Sort
import Mathlib.Data.String.Basic
import Peen.Base

/-!
# Merging the skills of parallel tools

Each tool of a round answers with the skills its conversation holds: the names it delivered, and
those of the stored history by the sequence of their message.
-/

namespace Peen.Agent

structure WorkflowSkillHistory where
  sequence : Int
  names : List String

/-- The saved skills of a conversation. -/
structure WorkflowSkillState where
  compactedThrough : Int
  history : List WorkflowSkillHistory
  delivered : List String

/-- `skillLedger`, as a saved state is restored to: without stored messages. -/
structure SkillLedger where
  delivered : Finset String
  restoredHistory : List WorkflowSkillHistory
  compactedThrough : Int

def validateWorkflowSkillNames (names : List String) : Except Err Unit :=
  if ∃ name ∈ names, name = "" ∨ trimSpace name.toList ≠ name.toList then
    .error ⟨.validationFailed, "restored skill name"⟩
  else .ok ()

def validateWorkflowSkillHistory (entry : WorkflowSkillHistory) (compactedThrough : Int)
    (seen : List Int) : Except Err Unit :=
  if entry.sequence ≤ compactedThrough then
    .error ⟨.validationFailed, "restored skill history sequence"⟩
  else if entry.sequence ∈ seen then
    .error ⟨.validationFailed, "duplicate restored skill history sequence"⟩
  else validateWorkflowSkillNames entry.names

/-- The loop of `restoreWorkflowSkills` over the history. -/
def validateHistories (compactedThrough : Int) :
    (seen : List Int) → List WorkflowSkillHistory → Except Err Unit
  | _, [] => .ok ()
  | seen, entry :: history => do
    let _ ← validateWorkflowSkillHistory entry compactedThrough seen
    validateHistories compactedThrough (entry.sequence :: seen) history

/-- The ledger of a saved state, where that is well formed. -/
def restoreWorkflowSkills : Option WorkflowSkillState → Except Err SkillLedger
  | none => .ok ⟨∅, [], 0⟩
  | some state =>
    if state.compactedThrough < 0 then
      .error ⟨.validationFailed, "restored skill compaction sequence"⟩
    else do
      let _ ← validateWorkflowSkillNames state.delivered
      let _ ← validateHistories state.compactedThrough [] state.history
      .ok ⟨state.delivered.toFinset, state.history, state.compactedThrough⟩

namespace SkillLedger

def record (l : SkillLedger) (names : List String) : SkillLedger :=
  { l with delivered := l.delivered ∪ names.toFinset }

def workflowState (l : SkillLedger) : WorkflowSkillState where
  compactedThrough := l.compactedThrough
  history := l.restoredHistory.insertionSort fun left right => left.sequence ≤ right.sequence
  delivered := l.delivered.sort

end SkillLedger

/-- The entries of the map `mergeWorkflowSkills` collects, each with its names sorted and compacted.
Their order is left open by the language; the state sorts them. -/
def collectHistory (entries : List WorkflowSkillHistory) : List WorkflowSkillHistory :=
  (entries.map (·.sequence)).toFinset.sort.map fun sequence =>
    ⟨sequence, ((entries.filter (·.sequence = sequence)).flatMap (·.names)).toFinset.sort⟩

/-- Restore both states, record the second in the first, and save. -/
def mergeWorkflowSkills (current next : Option WorkflowSkillState) :
    Except Err WorkflowSkillState := do
  let ledger ← restoreWorkflowSkills next
  let previous ← restoreWorkflowSkills current
  let ledger := ledger.record previous.workflowState.delivered
  let ledger := { ledger with
    compactedThrough := max ledger.compactedThrough previous.compactedThrough }
  let entries := (previous.workflowState.history ++ ledger.workflowState.history).filter
    fun entry => ¬ entry.sequence ≤ ledger.compactedThrough
  .ok { ledger with restoredHistory := collectHistory entries }.workflowState

/-! ## What a state means -/

/-- The delivered names, the watermark, and the sequences with their names. -/
@[ext]
structure SkillSet where
  compactedThrough : Int
  sequences : Finset Int
  names : Finset (Int × String)
  delivered : Finset String

def SkillLedger.skills (l : SkillLedger) : SkillSet where
  compactedThrough := l.compactedThrough
  sequences := (l.restoredHistory.map (·.sequence)).toFinset
  names := (l.restoredHistory.flatMap fun e => e.names.map (e.sequence, ·)).toFinset
  delivered := l.delivered

open SkillLedger

namespace SkillSet

def state (v : SkillSet) : WorkflowSkillState where
  compactedThrough := v.compactedThrough
  history := v.sequences.sort.map fun sequence =>
    ⟨sequence, ((v.names.filter (·.1 = sequence)).image (·.2)).sort⟩
  delivered := v.delivered.sort

def join (v w : SkillSet) : SkillSet where
  compactedThrough := max v.compactedThrough w.compactedThrough
  sequences := (v.sequences ∪ w.sequences).filter (max v.compactedThrough w.compactedThrough < ·)
  names := (v.names ∪ w.names).filter (max v.compactedThrough w.compactedThrough < ·.1)
  delivered := v.delivered ∪ w.delivered

/-- What is restored: nothing lies behind the watermark, every name has its sequence and is one the
code takes. -/
structure Valid (v : SkillSet) : Prop where
  compactedThrough : 0 ≤ v.compactedThrough
  sequences : ∀ s ∈ v.sequences, v.compactedThrough < s
  names : ∀ n ∈ v.names, n.1 ∈ v.sequences ∧ n.2 ≠ "" ∧ trimSpace n.2.toList = n.2.toList
  delivered : ∀ n ∈ v.delivered, n ≠ "" ∧ trimSpace n.toList = n.toList

theorem join_comm (v w : SkillSet) : v.join w = w.join v := by
  ext <;> simp [join, max_comm, or_comm]

theorem join_assoc (u v w : SkillSet) : (u.join v).join w = u.join (v.join w) := by
  ext <;> simp [join, max_assoc] <;> tauto

theorem Valid.join_self {v : SkillSet} (h : v.Valid) : v.join v = v := by
  ext x
  · simp [join]
  · simpa [join] using h.sequences x
  · simpa [join] using fun hx => h.sequences _ (h.names x hx).1
  · simp [join]

theorem Valid.join {v w : SkillSet} (hv : v.Valid) (hw : w.Valid) : (v.join w).Valid := by
  refine ⟨le_max_of_le_left hv.compactedThrough, fun s hs => (Finset.mem_filter.1 hs).2, ?_, ?_⟩
  · have hvn := hv.names
    have hwn := hw.names
    grind [join]
  · intro n hn
    exact (Finset.mem_union.1 hn).elim (hv.delivered n) (hw.delivered n)

end SkillSet

/-! ## Restoring and merging -/

theorem validateWorkflowSkillNames_ok : validateWorkflowSkillNames names = .ok u ↔
    ∀ n ∈ names, n ≠ "" ∧ trimSpace n.toList = n.toList := by
  rw [validateWorkflowSkillNames]
  split <;> grind

theorem validateHistories_ok : validateHistories w seen history = .ok u ↔
    (history.map (·.sequence)).Nodup ∧ ∀ e ∈ history, w < e.sequence ∧ e.sequence ∉ seen ∧
      ∀ n ∈ e.names, n ≠ "" ∧ trimSpace n.toList = n.toList := by
  induction history generalizing seen with
  | nil => simp [validateHistories]
  | cons e history ih =>
    have hentry : ∀ u, validateWorkflowSkillHistory e w seen = .ok u ↔ w < e.sequence ∧
        e.sequence ∉ seen ∧ ∀ n ∈ e.names, n ≠ "" ∧ trimSpace n.toList = n.toList := by
      rw [validateWorkflowSkillHistory, ← validateWorkflowSkillNames_ok (u := u)]
      grind
    rw [validateHistories, bind_eq_ok]
    grind

theorem restoreWorkflowSkills_valid (h : restoreWorkflowSkills s = .ok l) : l.skills.Valid := by
  cases s with
  | none =>
    cases h
    exact ⟨le_rfl, by simp [skills], by simp [skills],
      by simp [skills]⟩
  | some s =>
    obtain ⟨hw, h⟩ := of_check h
    obtain ⟨_, hdelivered, h⟩ := of_bind h
    obtain ⟨_, hhistory, h⟩ := of_bind h
    cases h
    rw [validateWorkflowSkillNames_ok] at hdelivered
    have hhistory := (validateHistories_ok.1 hhistory).2
    refine ⟨not_lt.1 hw, ?_, ?_, by simpa [skills] using hdelivered⟩
    · simpa [skills] using fun e he => (hhistory e he).1
    · intro n hn
      simp only [skills, List.mem_toFinset, List.mem_flatMap, List.mem_map] at hn ⊢
      obtain ⟨e, he, name, hname, rfl⟩ := hn
      exact ⟨⟨e, he, rfl⟩, (hhistory e he).2.2 name hname⟩

theorem SkillSet.Valid.restore {v : SkillSet} (h : v.Valid) :
    ∃ l, restoreWorkflowSkills (some v.state) = .ok l ∧ l.skills = v := by
  refine ⟨⟨v.state.delivered.toFinset, v.state.history, v.compactedThrough⟩, ?_, ?_⟩
  · have hdelivered : validateWorkflowSkillNames v.state.delivered = .ok () := by
      rw [validateWorkflowSkillNames_ok]
      simpa [state] using h.delivered
    have hhistory : validateHistories v.compactedThrough [] v.state.history = .ok () := by
      rw [validateHistories_ok]
      refine ⟨?_, ?_⟩
      · simp [state, Function.comp_def]
      · have hs := h.sequences
        have hn := h.names
        grind [state, Finset.mem_sort]
    have hw : ¬ v.state.compactedThrough < 0 := not_lt.2 h.compactedThrough
    rw [restoreWorkflowSkills, if_neg hw]
    exact bind_eq_ok.2 ⟨(), hdelivered, bind_eq_ok.2 ⟨(), hhistory, rfl⟩⟩
  · ext x
    · rfl
    · simp [skills, state]
    · obtain ⟨s, n⟩ := x
      simpa [skills, state] using fun hn => (h.names (s, n) hn).1
    · simp [skills, state]

theorem collectHistory_eq {v : SkillSet} (hs : ∀ s, s ∈ v.sequences ↔ ∃ e ∈ entries, e.sequence = s)
    (hn : ∀ s n, (s, n) ∈ v.names ↔ ∃ e ∈ entries, e.sequence = s ∧ n ∈ e.names) :
    (collectHistory entries).insertionSort (fun left right => left.sequence ≤ right.sequence)
      = v.state.history := by
  have hsequences : (entries.map (·.sequence)).toFinset = v.sequences := by
    ext s
    simp [hs]
  have hnames : ∀ s, ((entries.filter (·.sequence = s)).flatMap (·.names)).toFinset =
      (v.names.filter (·.1 = s)).image (·.2) := by
    intro s
    ext n
    simp [hn, and_assoc]
  have hcollect : collectHistory entries = v.state.history := by
    simp only [collectHistory, hsequences, hnames, SkillSet.state]
  rw [hcollect]
  refine List.Pairwise.insertionSort_eq (List.pairwise_map.2 ?_)
  exact v.sequences.pairwise_sort _

/-- **A merge is the join of what the two states mean.** -/
theorem mergeWorkflowSkills_eq (hc : restoreWorkflowSkills c = .ok lc)
    (hn : restoreWorkflowSkills n = .ok ln) :
    mergeWorkflowSkills c n = .ok (lc.skills.join ln.skills).state := by
  rw [mergeWorkflowSkills, hc, hn]
  refine congrArg Except.ok (WorkflowSkillState.mk.injEq .. ▸ ⟨max_comm _ _, ?_, ?_⟩)
  · refine collectHistory_eq (fun s => ?_) fun s n => ?_
    · simp [workflowState, record, SkillSet.join, skills]
      grind
    · simp [workflowState, record, SkillSet.join, skills]
      grind
  · simp [workflowState, SkillSet.join, skills, record, Finset.union_comm]

/-- The state a merge reads; no state counts as an empty one. -/
def savedSkills (saved : Option WorkflowSkillState) : WorkflowSkillState := saved.getD ⟨0, [], []⟩

/-- A restored ledger has the fields of the saved state. -/
theorem restoreWorkflowSkills_ok (h : restoreWorkflowSkills s = .ok l) :
    l = ⟨(savedSkills s).delivered.toFinset, (savedSkills s).history,
      (savedSkills s).compactedThrough⟩ := by
  cases s with
  | none => cases h; rfl
  | some s =>
    obtain ⟨_, h⟩ := of_check h
    obtain ⟨_, _, h⟩ := of_bind h
    obtain ⟨_, _, h⟩ := of_bind h
    cases h
    rfl

/-- **Merging skills is a join.** For saved states that are accepted, a merge is accepted again. It
holds the names delivered in either state, its watermark is the larger one, and its history holds
exactly the names either history holds at a sequence beyond that watermark. Merges may be exchanged
and regrouped, and a merge merged with itself stays as it is. -/
theorem mergeWorkflowSkills_join (ha : restoreWorkflowSkills a = .ok la)
    (hb : restoreWorkflowSkills b = .ok lb) (hc : restoreWorkflowSkills c = .ok lc) :
    ∃ ab bc abc, mergeWorkflowSkills a b = .ok ab ∧ mergeWorkflowSkills b c = .ok bc ∧
      mergeWorkflowSkills b a = .ok ab ∧ mergeWorkflowSkills (some ab) (some ab) = .ok ab ∧
      mergeWorkflowSkills (some ab) c = .ok abc ∧ mergeWorkflowSkills a (some bc) = .ok abc ∧
      (∃ l, restoreWorkflowSkills (some ab) = .ok l) ∧
      (∀ name, name ∈ ab.delivered ↔
        name ∈ (savedSkills a).delivered ∨ name ∈ (savedSkills b).delivered) ∧
      ab.compactedThrough = max (savedSkills a).compactedThrough (savedSkills b).compactedThrough ∧
      ∀ sequence name, (∃ e ∈ ab.history, e.sequence = sequence ∧ name ∈ e.names) ↔
        ab.compactedThrough < sequence ∧ ∃ e ∈ (savedSkills a).history ++ (savedSkills b).history,
          e.sequence = sequence ∧ name ∈ e.names := by
  have hva := restoreWorkflowSkills_valid ha
  have hvb := restoreWorkflowSkills_valid hb
  have hvc := restoreWorkflowSkills_valid hc
  obtain ⟨lab, hab, hlab⟩ := (hva.join hvb).restore
  obtain ⟨lbc, hbc, hlbc⟩ := (hvb.join hvc).restore
  refine ⟨_, _, ((la.skills.join lb.skills).join lc.skills).state, mergeWorkflowSkills_eq ha hb,
    mergeWorkflowSkills_eq hb hc, ?_, ?_, ?_, ?_, ⟨lab, hab⟩, ?_, ?_, ?_⟩
  · rw [mergeWorkflowSkills_eq hb ha, SkillSet.join_comm]
  · rw [mergeWorkflowSkills_eq hab hab, hlab, (hva.join hvb).join_self]
  · rw [mergeWorkflowSkills_eq hab hc, hlab]
  · rw [mergeWorkflowSkills_eq ha hbc, hlbc, SkillSet.join_assoc]
  · simp [SkillSet.state, SkillSet.join, skills, restoreWorkflowSkills_ok ha,
      restoreWorkflowSkills_ok hb]
  · simp [SkillSet.state, SkillSet.join, skills, restoreWorkflowSkills_ok ha,
      restoreWorkflowSkills_ok hb]
  · simp [SkillSet.state, SkillSet.join, skills, restoreWorkflowSkills_ok ha,
      restoreWorkflowSkills_ok hb]
    grind

/-- One tool went on after the other's message was compacted: that skill is not revived, and the
others are kept. -/
theorem mergeWorkflowSkills_compacted :
    ∃ merged, mergeWorkflowSkills (some ⟨0, [⟨1, ["go"]⟩, ⟨3, ["sql"]⟩], ["lint"]⟩)
      (some ⟨2, [⟨3, ["css"]⟩], ["test"]⟩) = .ok merged ∧ merged.compactedThrough = 2 ∧
        "lint" ∈ merged.delivered ∧ "test" ∈ merged.delivered ∧
        (∀ name ∈ ["css", "sql"], ∃ e ∈ merged.history, e.sequence = 3 ∧ name ∈ e.names) ∧
        ∀ name, ¬ ∃ e ∈ merged.history, e.sequence = 1 ∧ name ∈ e.names := by
  obtain ⟨merged, _, _, hmerged, _, _, _, _, _, _, hdelivered, hw, hnames⟩ :=
    mergeWorkflowSkills_join (a := some ⟨0, [⟨1, ["go"]⟩, ⟨3, ["sql"]⟩], ["lint"]⟩)
      (b := some ⟨2, [⟨3, ["css"]⟩], ["test"]⟩) (c := none) rfl rfl rfl
  have hw : merged.compactedThrough = 2 := hw
  rw [hw] at hnames
  refine ⟨merged, hmerged, hw, (hdelivered _).2 (by decide), (hdelivered _).2 (by decide),
    fun name hname => (hnames 3 name).2 ⟨by decide, ?_⟩, fun name h => ?_⟩
  · revert name
    decide
  · exact absurd ((hnames 1 name).1 h).1 (by decide)

end Peen.Agent
