import Mathlib.Data.List.Infix
import Peen.Base

/-!
# The history of a workflow, page by page

A worker reads the history of a workflow instance from the controller in pages of a bounded encoded
size, each behind the last event of the one before, while the history may grow.
-/

namespace Peen.Worker

open List

structure WorkflowEvent where
  sequenceID : Int
  encoded : List UInt8

/-- A page and whether more follows. -/
structure WorkflowHistoryPage where
  events : List WorkflowEvent
  more : Bool

/-- The loop of `workflowHistoryPageOf`, from an index and a size on. -/
def pageFrom (budget : Int) (index size : Nat) : List WorkflowEvent → WorkflowHistoryPage
  | [] => ⟨[], false⟩
  | event :: events =>
    if index > 0 ∧ (size + event.encoded.length : Nat) > budget then ⟨[], true⟩
    else
      let page := pageFrom budget (index + 1) (size + event.encoded.length) events
      ⟨event :: page.events, page.more⟩

def workflowHistoryPageOf (events : List WorkflowEvent) (budget : Int) : WorkflowHistoryPage :=
  pageFrom budget 0 0 events

/-- The backend's `GetWorkflowInstanceHistory`: `WHERE sequence_id > ?`, in the order of the IDs. -/
def eventsAfter (history : List WorkflowEvent) (after : Option Int) : List WorkflowEvent :=
  history.filter (after.getD (-1) < ·.sequenceID)

def getHistory (budget : Int) (history : List WorkflowEvent) (after : Option Int) :
    Option WorkflowHistoryPage :=
  if after.any (· < 0) then none
  else some (workflowHistoryPageOf (eventsAfter history after) budget)

/-- The loop of `GetWorkflowInstanceHistory`. Page `k` reads the history `reads k`. The result is
`none` when the fuel runs out and `some none` for an error. -/
def readPages (budget : Int) (reads : Nat → List WorkflowEvent) : (fuel k : Nat) → Option Int →
    List WorkflowEvent → Option (Option (List WorkflowEvent))
  | 0, _, _, _ => none
  | fuel + 1, k, after, events =>
    match getHistory budget (reads k) after with
    | none => some none
    | some page =>
      let events := events ++ page.events
      if !page.more || page.events.isEmpty then some (some events)
      else readPages budget reads fuel (k + 1) (page.events.getLast?.map (·.sequenceID)) events

/-- Page after page, behind the last event. -/
def getWorkflowInstanceHistory (budget : Int) (reads : Nat → List WorkflowEvent) (fuel : Nat)
    (lastSequenceID : Option Int) : Option (Option (List WorkflowEvent)) :=
  readPages budget reads fuel 0 lastSequenceID []

/-- The history only grows, in order. -/
structure Grows (reads : Nat → List WorkflowEvent) : Prop where
  appended : ∀ k, reads k <+: reads (k + 1)
  increasing : ∀ k, (reads k).Pairwise (·.sequenceID < ·.sequenceID)

/-- The loop before page `k`: what it has and what comes behind its last event is the history. -/
structure Reading (reads : Nat → List WorkflowEvent) (start : Option Int) (k : Nat)
    (after : Option Int) (events : List WorkflowEvent) : Prop where
  natural : after.any (· < 0) = false
  parts : ∀ j, k ≤ j → eventsAfter (reads j) start = events ++ eventsAfter (reads j) after
  progress : k ≤ events.length

section
variable {budget : Int} {reads : Nat → List WorkflowEvent} {start last : Option Int}
  {events page rest : List WorkflowEvent}

theorem pageFrom_spec (index size : Nat) (events : List WorkflowEvent) :
    let page := pageFrom budget index size events
    ∃ rest, events = page.events ++ rest ∧ (page.more = false → rest = []) ∧
      (index = 0 → page.events = [] → events = []) := by
  induction events generalizing index size with
  | nil => exact ⟨[], rfl, fun _ => rfl, fun _ _ => rfl⟩
  | cons event events ih =>
    rw [pageFrom]
    split
    next hover => exact ⟨_, rfl, nofun, fun h => absurd hover.1 (by omega)⟩
    next =>
      obtain ⟨rest, heq, hall, _⟩ := ih (index + 1) (size + event.encoded.length)
      exact ⟨rest, congrArg (event :: ·) heq, hall, nofun⟩

theorem Grows.le (hg : Grows reads) (hij : i ≤ j) : reads i <+: reads j := by
  induction hij with
  | refl => exact prefix_rfl
  | step _ ih => exact ih.trans (hg.appended _)

theorem event_natural {event : WorkflowEvent} (hlast : last.any (· < 0) = false)
    (h : event ∈ eventsAfter events last) : (some event.sequenceID).any (· < 0) = false := by
  have hafter := (mem_filter.1 h).2
  cases last <;> simp_all <;> omega

theorem eventsAfter_last {event : WorkflowEvent} (hl : l.Pairwise (·.sequenceID < ·.sequenceID))
    (h : eventsAfter l last = page ++ rest) (hlast : page.getLast? = some event) :
    eventsAfter l (some event.sequenceID) = rest := by
  obtain ⟨init, rfl⟩ := getLast?_eq_some_iff.1 hlast
  have hmem : event ∈ eventsAfter l last := by simp [h]
  have hevent : last.getD (-1) < event.sequenceID := by simpa using (mem_filter.1 hmem).2
  have hcut : eventsAfter l (some event.sequenceID) =
      (eventsAfter l last).filter (event.sequenceID < ·.sequenceID) := by
    rw [eventsAfter, eventsAfter, filter_filter]
    grind
  have hord := hl.filter (last.getD (-1) < ·.sequenceID)
  rw [← eventsAfter, h, append_assoc, pairwise_append] at hord
  obtain ⟨-, hrest, hinit⟩ := hord
  have hfront : init.filter (event.sequenceID < ·.sequenceID) = [] := by
    refine filter_eq_nil_iff.2 fun x hx => ?_
    have := hinit x hx event mem_cons_self
    simp only [decide_eq_true_eq]
    omega
  have hback : rest.filter (event.sequenceID < ·.sequenceID) = rest :=
    filter_eq_self.2 fun x hx => by simpa using rel_of_pairwise_cons hrest hx
  rw [hcut, h, filter_append, filter_append, hfront, hback]
  simp

theorem Reading.readPages (hg : Grows reads) (fuel : Nat) (h : Reading reads start k last events) :
    (∃ j, readPages budget reads fuel k last events =
      some (some (eventsAfter (reads j) start))) ∨
    (Worker.readPages budget reads fuel k last events = none ∧
      ∃ last' events', Reading reads start (k + fuel) last' events') := by
  induction fuel generalizing k last events with
  | zero => exact .inr ⟨rfl, last, events, h⟩
  | succ fuel ih =>
    have hspec := @pageFrom_spec budget 0 0 (eventsAfter (reads k) last)
    rw [Worker.readPages, getHistory, if_neg (by simp [h.natural]), workflowHistoryPageOf]
    generalize pageFrom budget 0 0 (eventsAfter (reads k) last) = page at *
    obtain ⟨rest, hpage, hall, hsome⟩ := hspec
    dsimp only
    split
    next hdone =>
      have hrest : rest = [] := by
        rcases (Bool.or_eq_true ..).mp hdone with hmore | hnone
        · exact hall (by simpa using hmore)
        · have hnone := List.isEmpty_iff.1 hnone
          simpa [hsome rfl hnone, hnone] using hpage.symm
      exact .inl ⟨k, by rw [h.parts k (Nat.le_refl _), hpage, hrest, append_nil]⟩
    next hmore =>
      have hne : page.events ≠ [] := by simp_all
      obtain ⟨event, hevent⟩ := Option.isSome_iff_exists.1 (getLast?_isSome.2 hne)
      have hmem : event ∈ eventsAfter (reads k) last := by
        rw [hpage]
        exact mem_append_left _ (mem_of_getLast? hevent)
      rw [hevent, Option.map_some, ← Nat.add_assoc, Nat.add_right_comm k]
      refine ih ⟨?_, fun j hj => ?_, ?_⟩
      · exact event_natural h.natural hmem
      · obtain ⟨grown, hgrown⟩ := hg.le (Nat.le_of_succ_le hj)
        have hnow : eventsAfter (reads j) last =
            page.events ++ (rest ++ eventsAfter grown last) := by
          rw [← append_assoc, ← hpage, ← hgrown, eventsAfter, filter_append]
          rfl
        rw [h.parts j (Nat.le_of_succ_le hj), eventsAfter_last (hg.increasing j) hnow hevent, hnow,
          append_assoc]
      · have := h.progress
        have := length_pos_iff.2 hne
        rw [length_append]
        omega

end

/-- **Paged history is the whole history.** From an ID that is not negative, whatever is appended
between the pages, the reader returns the events after the ID as they are in the history at its last
page, and so all that were there at its first. It returns once appending stops. -/
theorem history_pages_whole (budget : Int) (reads : Nat → List WorkflowEvent) (hg : Grows reads)
    (start : Option Int) (hstart : start.any (· < 0) = false) :
    (∀ fuel result, getWorkflowInstanceHistory budget reads fuel start = some result →
      ∃ j, result = some (eventsAfter (reads j) start) ∧
        eventsAfter (reads 0) start <+: eventsAfter (reads j) start) ∧
    ∀ n, (∀ j, n ≤ j → reads j = reads n) → ∀ fuel, n + (reads n).length < fuel →
      (getWorkflowInstanceHistory budget reads fuel start).isSome := by
  have hread : Reading reads start 0 start [] := ⟨hstart, fun _ _ => rfl, Nat.le_refl _⟩
  refine ⟨fun fuel result hr => ?_, fun n hn fuel hf => ?_⟩
  · rcases hread.readPages hg fuel with ⟨j, hj⟩ | ⟨hnone, _⟩
    · cases hr.symm.trans hj
      exact ⟨j, rfl, (hg.le (Nat.zero_le j)).filter _⟩
    · cases hr.symm.trans hnone
  · rcases hread.readPages hg fuel with ⟨j, hj⟩ | ⟨_, _, _, h⟩
    · exact Option.isSome_of_eq_some hj
    · have hparts := congrArg length (h.parts _ (Nat.le_refl _))
      have := h.progress
      have := length_filter_le (start.getD (-1) < ·.sequenceID) (reads n)
      rw [hn _ (by omega), length_append, eventsAfter] at hparts
      omega

def threeEvents : List WorkflowEvent := [⟨1, [1, 2]⟩, ⟨2, [3]⟩, ⟨3, [4, 5, 6, 7]⟩]

/-- The third event is appended after the first page was read. -/
def growingHistory (page : Nat) : List WorkflowEvent :=
  if page = 0 then threeEvents.take 2 else threeEvents

theorem grows_growingHistory : Grows growingHistory where
  appended page := by
    cases page with
    | zero => exact take_prefix 2 threeEvents
    | succ page => exact prefix_rfl
  increasing page := by
    cases page with
    | zero => decide
    | succ page => exact (by decide : threeEvents.Pairwise (·.sequenceID < ·.sequenceID))

/-- The event is returned with those that were there at the first page. -/
theorem history_pages_whole_grown : Grows growingHistory ∧
    getWorkflowInstanceHistory 2 growingHistory 5 (some 0) = some (some threeEvents) ∧
    (getWorkflowInstanceHistory 2 growingHistory 5 (some 0)).isSome ∧
    ∃ j, some threeEvents = some (eventsAfter (growingHistory j) (some 0)) ∧
      eventsAfter (growingHistory 0) (some 0) <+: eventsAfter (growingHistory j) (some 0) := by
  have hread : getWorkflowInstanceHistory 2 growingHistory 5 (some 0) = some (some threeEvents) := rfl
  obtain ⟨hwhole, hreturns⟩ := history_pages_whole 2 growingHistory grows_growingHistory (some 0) rfl
  have hstops : ∀ j, 1 ≤ j → growingHistory j = growingHistory 1 :=
    fun j hj => if_neg (Nat.one_le_iff_ne_zero.1 hj)
  exact ⟨grows_growingHistory, hread, hreturns 1 hstops 5 (by decide), hwhole 5 _ hread⟩

/-- From a negative ID nothing is returned. -/
theorem history_pages_refused :
    getWorkflowInstanceHistory 3 (fun _ => threeEvents) 4 (some (-1)) = some none := rfl

end Peen.Worker
