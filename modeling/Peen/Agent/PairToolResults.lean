import Peen.Session.Message
import Mathlib.Data.List.Nodup

/-!
# Pairing replayed tool results

`pairToolResults` gives stored history the shape a provider accepts.
-/

namespace Peen

open List
open Message (toolCallID)

/-! ## The pass -/

def unansweredReplyText : String := "(This reply only made tool calls that never returned.)"

def lateToolResultUnknownName : String := "unknown"

/-- The text before the result in `lateToolResultFormat`. -/
def lateToolResultLead (name callID : String) : String :=
  "A result for the earlier " ++ name ++ " tool call " ++ callID ++
    " arrived after its turn stopped:\n"

/-- The map `names`, from calls to tool names; a call it lacks reads as the empty name. -/
abbrev CallNames := String → String

section
variable (message : Message) (names : CallNames) (calls : List ToolCall)

def CallNames.record : CallNames :=
  calls.foldl (fun names call id => if id = call.id then call.name else names id) names

/-- A result stored apart from its call, as a system message. -/
def lateToolResult : Message :=
  let name := names message.toolCallID
  let name := if name = "" then lateToolResultUnknownName else name
  { message with
    role := .system
    content := lateToolResultLead name message.toolCallID ++ message.content
    toolCallID := ""
    isError := false }

/-- `withoutUnansweredToolCalls`. Encoding calls that were decoded does not fail. -/
def withoutUnansweredToolCalls (unanswered : List String) : Message :=
  let kept := calls.filter fun call => call.id ∉ unanswered
  { message with
    toolCallsJSON := some kept
    content := if kept = [] ∧ message.content = "" then unansweredReplyText else message.content }

/-- The loop of `pairAssistantCalls` over the rows after the assistant message: how many of them
answer calls that are pending, and the calls still pending behind them. -/
def takeResults (pending : List String) : List Message → Nat × List String
  | [] => (0, pending)
  | message :: rest =>
    if message.role = .tool ∧ message.toolCallID ∈ pending then
      let r := takeResults (pending.filter (· ≠ message.toolCallID)) rest
      (r.1 + 1, r.2)
    else (0, pending)

/-- `pairAssistantCalls`: the reply that stands in the message's place, how many results follow it,
and the names known after it. -/
def pairAssistantCalls (rest : List Message) (names : CallNames) :
    Except Err (Message × Nat × CallNames) :=
  match message.toolCallsJSON with
  | none => .error ⟨.encoding, "unmarshal stored tool calls"⟩
  | some calls =>
    let r := takeResults (calls.map ToolCall.id) rest
    let reply := if r.2 = [] then message else withoutUnansweredToolCalls message calls r.2
    .ok (reply, r.1, names.record calls)

end

/-- The loop of `pairToolResults`, with `skip` rows to jump over before the next one it looks at. -/
def pairFrom (names : CallNames) (skip : Nat) : List Message → Except Err (List Message)
  | [] => .ok []
  | message :: rest =>
    match skip with
    | skip + 1 => (message :: ·) <$> pairFrom names skip rest
    | 0 =>
      match message.role with
      | .tool => (lateToolResult message names :: ·) <$> pairFrom names 0 rest
      | .assistant =>
        match pairAssistantCalls message rest names with
        | .error e => .error e
        | .ok (reply, taken, names) => (reply :: ·) <$> pairFrom names taken rest
      | .system | .user | .unknown _ => (message :: ·) <$> pairFrom names 0 rest

/-- The whole pass. A call without a result is left out of its reply, and a result that came apart
becomes a system message. -/
def pairToolResults (history : List Message) : Except Err (List Message) :=
  pairFrom (fun _ => "") 0 history

/-! ## What the pass arrives at -/

/-- The calls an assistant message makes; a text that does not parse makes none. -/
def Message.calls (message : Message) : List ToolCall := message.toolCallsJSON.getD []

/-- The results after an assistant message answer its calls, one each. -/
structure Answers (reply : Message) (results : List Message) : Prop where
  assistant : reply.role = .assistant
  parsed : reply.toolCallsJSON = some reply.calls
  distinct : (reply.calls.map ToolCall.id).Nodup
  tools : ∀ t ∈ results, t.role = .tool
  once : (results.map toolCallID).Nodup
  covers : ∀ id, id ∈ results.map toolCallID ↔ id ∈ reply.calls.map ToolCall.id

/-- Rows made of single messages, and of replies with their results. -/
inductive Paired : List Message → Prop
  | nil : Paired []
  | single {message : Message} {rest : List Message} :
    message.role ≠ .tool → message.role ≠ .assistant → Paired rest → Paired (message :: rest)
  | reply {reply : Message} {results rest : List Message} :
    Answers reply results → Paired rest → Paired (reply :: (results ++ rest))

/-- How the pass may change one row: a result becomes a note, a reply loses calls. -/
inductive Rewritten : Message → Message → Prop
  | kept (message : Message) : Rewritten message message
  | late {message : Message} (names : CallNames) :
    message.role = .tool → Rewritten message (lateToolResult message names)
  | trimmed {message : Message} {calls : List ToolCall} (unanswered : List String) :
    message.role = .assistant → message.toolCallsJSON = some calls →
    Rewritten message (withoutUnansweredToolCalls message calls unanswered)

/-- Rows whose replies make calls that parse and have distinct IDs. -/
def DistinctCalls (rows : List Message) : Prop :=
  ∀ m ∈ rows, m.role = .assistant →
    ∃ calls, m.toolCallsJSON = some calls ∧ (calls.map ToolCall.id).Nodup

theorem DistinctCalls.tail (h : DistinctCalls (m :: rows)) :
    DistinctCalls rows :=
  fun x hx => h x (mem_cons_of_mem m hx)

theorem DistinctCalls.drop (h : DistinctCalls rows) (n : Nat) :
    DistinctCalls (rows.drop n) :=
  fun x hx => h x (mem_of_mem_drop hx)

/-! ## The lookahead -/

/-- The lookahead takes tool messages, each for a pending call and none twice; pending stays what
they do not answer. -/
theorem takeResults_spec (pending : List String) (rest : List Message) :
    (takeResults pending rest).1 ≤ rest.length ∧
    (∀ t ∈ rest.take (takeResults pending rest).1, t.role = .tool) ∧
    ((rest.take (takeResults pending rest).1).map toolCallID).Nodup ∧
    (∀ id ∈ (rest.take (takeResults pending rest).1).map toolCallID, id ∈ pending) ∧
    ∀ id, id ∈ (takeResults pending rest).2 ↔
      id ∈ pending ∧ id ∉ (rest.take (takeResults pending rest).1).map toolCallID := by
  induction rest generalizing pending with
  | nil => simp [takeResults]
  | cons message rest ih =>
    rw [takeResults]
    split
    next htake =>
      obtain ⟨hle, htl, hnd, hmem, hleft⟩ := ih (pending.filter (· ≠ message.toolCallID))
      simp only [take_succ_cons, map_cons, nodup_cons, mem_cons, length_cons]
      refine ⟨Nat.succ_le_succ hle, ?_, ⟨?_, hnd⟩, ?_, ?_⟩
      · intro t ht
        rcases ht with rfl | ht
        · exact htake.1
        · exact htl t ht
      · intro h
        have := hmem _ h
        simp at this
      · intro id hid
        rcases hid with rfl | hid
        · exact htake.2
        · exact (mem_filter.mp (hmem id hid)).1
      · intro id
        rw [hleft id]
        simp only [mem_filter, decide_eq_true_eq, not_or]
        exact ⟨fun ⟨⟨h1, h2⟩, h3⟩ => ⟨h1, h2, h3⟩, fun ⟨h1, h2, h3⟩ => ⟨⟨h1, h2⟩, h3⟩⟩
    · simp

theorem takeResults_nil (rest : List Message) : takeResults [] rest = (0, []) := by
  cases rest with
  | nil => rfl
  | cons => simp [takeResults]

theorem takeResults_append (results rest : List Message) (pending : List String)
    (htl : ∀ t ∈ results, t.role = .tool) (honce : (results.map toolCallID).Nodup)
    (hpend : ∀ id ∈ results.map toolCallID, id ∈ pending) :
    takeResults pending (results ++ rest) =
      let left := pending.filter fun id => id ∉ results.map toolCallID
      ((takeResults left rest).1 + results.length, (takeResults left rest).2) := by
  induction results generalizing pending with
  | nil => simp
  | cons t results ih =>
    rw [map_cons, nodup_cons] at honce
    have htake : t.role = .tool ∧ t.toolCallID ∈ pending :=
      ⟨htl t mem_cons_self, hpend _ mem_cons_self⟩
    have hpend' : ∀ id ∈ results.map toolCallID,
        id ∈ pending.filter (· ≠ t.toolCallID) := by
      intro id hid
      have hne : id ≠ t.toolCallID := fun h => honce.1 (h ▸ hid)
      exact mem_filter.mpr ⟨hpend id (mem_cons_of_mem _ hid), by simpa using hne⟩
    have hleft : (pending.filter (· ≠ t.toolCallID)).filter
          (fun id => id ∉ results.map toolCallID) =
        pending.filter fun id => id ∉ (t :: results).map toolCallID := by
      rw [filter_filter]
      simp only [map_cons, mem_cons, not_or, Bool.decide_and, Bool.and_comm]
    rw [cons_append, takeResults, if_pos htake,
      ih _ (fun t ht => htl t (mem_cons_of_mem _ ht)) honce.2 hpend']
    simp only [hleft, length_cons, Nat.add_assoc]

theorem pairFrom_skip (names : CallNames) (skipped rest : List Message) :
    pairFrom names skipped.length (skipped ++ rest) = (skipped ++ ·) <$> pairFrom names 0 rest := by
  induction skipped with
  | nil =>
    show pairFrom names 0 rest = (fun out => out) <$> pairFrom names 0 rest
    cases pairFrom names 0 rest with
    | error | ok => rfl
  | cons m skipped ih =>
    simp only [length_cons, cons_append, pairFrom, ih]
    cases pairFrom names 0 rest with
    | error | ok => rfl

/-! ## One reply -/

theorem answers_of_takeResults {message : Message} (rest : List Message)
    (hrole : message.role = .assistant) (hcl : message.toolCallsJSON = some calls)
    (hdist : (calls.map ToolCall.id).Nodup) :
    let r := takeResults (calls.map ToolCall.id) rest
    Answers (if r.2 = [] then message else withoutUnansweredToolCalls message calls r.2)
      (rest.take r.1) := by
  obtain ⟨-, htl, honce, hmem, hleft⟩ := takeResults_spec (calls.map ToolCall.id) rest
  intro r
  split
  next hnone =>
    have hmsg : message.calls = calls := by rw [Message.calls, hcl]; rfl
    refine ⟨hrole, by rw [hmsg, hcl], by rw [hmsg]; exact hdist, htl, honce, ?_⟩
    intro id
    rw [hmsg]
    refine ⟨hmem id, fun hid => ?_⟩
    by_contra hnot
    have : id ∈ r.2 := (hleft id).mpr ⟨hid, hnot⟩
    rw [hnone] at this
    exact nomatch this
  · have hkept : (withoutUnansweredToolCalls message calls r.2).calls =
        calls.filter fun call => call.id ∉ r.2 := rfl
    refine ⟨hrole, rfl, ?_, htl, honce, ?_⟩
    · exact hdist.sublist (filter_sublist.map _)
    · intro id
      simp only [hkept, mem_map (f := ToolCall.id), mem_filter, decide_eq_true_eq]
      refine ⟨fun hid => ?_, fun h => ?_⟩
      · obtain ⟨call, hcall, hcallID⟩ := mem_map.mp (hmem id hid)
        refine ⟨call, ⟨hcall, fun hpend => ?_⟩, hcallID⟩
        exact ((hleft _).mp hpend).2 (hcallID ▸ hid)
      · obtain ⟨call, ⟨hcall, hpend⟩, rfl⟩ := h
        by_contra hnot
        exact hpend ((hleft _).mpr ⟨mem_map.mpr ⟨call, hcall, rfl⟩, hnot⟩)

theorem rewritten_reply {message : Message} (unanswered : List String)
    (hrole : message.role = .assistant) (hcl : message.toolCallsJSON = some calls) :
    Rewritten message (if unanswered = [] then message
      else withoutUnansweredToolCalls message calls unanswered) := by
  split
  · exact .kept message
  · exact .trimmed unanswered hrole hcl

/-! ## The whole pass -/

/-- **The pass returns paired rows, row by row those it was given.** By induction on how many rows
are left: behind a reply the loop goes on after its results. -/
theorem pairFrom_paired (n : Nat) (names : CallNames) (rows : List Message) (hn : rows.length ≤ n)
    (hcl : DistinctCalls rows) :
    ∃ out, pairFrom names 0 rows = .ok out ∧ Paired out ∧ Forall₂ Rewritten rows out := by
  induction n generalizing names rows with
  | zero =>
    cases rows with
    | nil => exact ⟨[], rfl, .nil, .nil⟩
    | cons => exact absurd hn (by simp)
  | succ n ih =>
    cases rows with
    | nil => exact ⟨[], rfl, .nil, .nil⟩
    | cons message rest =>
      have hlen : rest.length ≤ n := Nat.le_of_succ_le_succ hn
      have single : message.role ≠ .tool → message.role ≠ .assistant →
          ∃ out, (message :: ·) <$> pairFrom names 0 rest = .ok out ∧ Paired out ∧
            Forall₂ Rewritten (message :: rest) out := by
        intro htool hasst
        obtain ⟨out, hout, hpd, hrows⟩ := ih names rest hlen hcl.tail
        refine ⟨message :: out, by rw [hout]; rfl, .single htool hasst hpd, ?_⟩
        exact .cons (.kept message) hrows
      rw [pairFrom]
      split
      next hrole =>
        obtain ⟨out, hout, hpd, hrows⟩ := ih names rest hlen hcl.tail
        refine ⟨lateToolResult message names :: out, by rw [hout]; rfl, ?_, ?_⟩
        · exact .single nofun nofun hpd
        · exact .cons (.late names hrole) hrows
      next hrole =>
        obtain ⟨calls, hprs, hdist⟩ := hcl message mem_cons_self hrole
        have hans := answers_of_takeResults rest hrole hprs hdist
        have hle := (takeResults_spec (calls.map ToolCall.id) rest).1
        simp only [pairAssistantCalls, hprs]
        generalize takeResults (calls.map ToolCall.id) rest = r at hans hle
        obtain ⟨out, hout, hpd, hrows⟩ := ih (names.record calls) (rest.drop r.1)
          (by rw [length_drop]; omega) (hcl.tail.drop r.1)
        have hskip := pairFrom_skip (names.record calls) (rest.take r.1) (rest.drop r.1)
        rw [length_take, Nat.min_eq_left hle, take_append_drop, hout] at hskip
        refine ⟨_, by rw [hskip]; rfl, .reply hans hpd, ?_⟩
        have htail : Forall₂ Rewritten (rest.take r.1 ++ rest.drop r.1)
            (rest.take r.1 ++ out) :=
          rel_append (forall₂_same.mpr fun t _ => Rewritten.kept t) hrows
        rw [take_append_drop] at htail
        exact .cons (rewritten_reply r.2 hrole hprs) htail
      all_goals exact single (by simp [*]) (by simp [*])

theorem pairFrom_of_paired (h : Paired rows) (names : CallNames) :
    pairFrom names 0 rows = .ok rows := by
  induction h generalizing names with
  | nil => rfl
  | @single message rest htool hasst _ ih =>
    rw [pairFrom]
    split
    · exact absurd ‹_› htool
    · exact absurd ‹_› hasst
    all_goals rw [ih names]; rfl
  | @reply reply results rest hans _ ih =>
    have hpend : ∀ id ∈ results.map toolCallID, id ∈ reply.calls.map ToolCall.id :=
      fun id hid => (hans.covers id).mp hid
    have hnone : (reply.calls.map ToolCall.id).filter
        (fun id => id ∉ results.map toolCallID) = [] := by
      rw [filter_eq_nil_iff]
      intro id hid
      simpa using (hans.covers id).mpr hid
    have htake := takeResults_append results rest _ hans.tools hans.once hpend
    simp only [hnone, takeResults_nil, Nat.zero_add] at htake
    rw [pairFrom]
    split
    next hrole =>
      rw [hans.assistant] at hrole
      cases hrole
    · rw [pairAssistantCalls, hans.parsed]
      simp only [htake, if_true]
      rw [pairFrom_skip, ih]
      rfl
    all_goals
      rename_i hrole
      rw [hans.assistant] at hrole
      cases hrole

end Peen
