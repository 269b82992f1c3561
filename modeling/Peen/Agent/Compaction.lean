import Peen.Agent.PromptHistory
import Peen.Session.CompactionStore

/-!
# The compactor

`compactor.handle` runs when a request exceeds its token budget.
-/

namespace Peen

def compactionMinimumSummaryTokens : Nat := 512

def compactionSummaryRoomDivisor : Nat := 2

/-- What the compactor keeps of the newest compaction. -/
structure CompactionHead where
  id : UUID
  fromMessageID : UUID
  fromSequence : Int
  sourceMessageCount : Int
  summaryTokens : Int

structure CompactionSummary where
  text : String
  modelID : String
  inputTokens : Int
  outputTokens : Int

/-- What the hooks around a compaction are told. -/
structure CompactionHookPayload where
  workspace : String
  estimatedTokens : Int
  budgetTokens : Int
  round : Nat
  unitsCovered : Nat
  messagesCovered : Nat
  summaryTokens : Int

/-- `compactor`, with those of its options that `handle` reads. -/
structure Compactor where
  plan : ReconstructionPlan
  active : Option CompactionHead
  room : Nat
  maxOutputTokens : Nat
  promptHash : String
  workspace : String

structure TokenLimitEvent where
  messages : List Elelem.Message
  estimatedTokens : Int
  budgetTokens : Int
  round : Nat

/-- `compactionSink`. The head it returns describes the row it stored. -/
structure CompactionSink where
  persist : CompactionInput → Except Err CompactionHead
  persist_head : ∀ {input : CompactionInput} {head : CompactionHead}, persist input = .ok head →
    head.fromMessageID = input.fromMessageID ∧ head.fromSequence = input.fromSequence ∧
      head.sourceMessageCount = input.sourceMessageCount ∧
      head.summaryTokens = input.summaryTokenCount

def sessionCompactionHead (active : Compaction) : CompactionHead :=
  ⟨active.id, active.fromMessageID, active.fromSequence, active.sourceMessageCount,
    active.summaryTokenCount⟩

/-- The record of a compaction has the ends and the counts of its input. -/
theorem sessionCompactionHead_createCompaction {cfg : Sessions.Config} {s s' : Sessions.Tables}
    {input : CompactionInput} {stored : Compaction} {newID : UUID}
    (h : Sessions.Tables.createCompaction cfg s input newID = .ok (stored, s')) :
    let head := sessionCompactionHead stored
    head.fromMessageID = input.fromMessageID ∧ head.fromSequence = input.fromSequence ∧
      head.sourceMessageCount = input.sourceMessageCount ∧
      head.summaryTokens = input.summaryTokenCount := by
  obtain ⟨normalized, hnormalized, h⟩ := of_bind h
  obtain ⟨_, hnormalized⟩ := of_check hnormalized
  obtain ⟨_, hnormalized⟩ := of_check hnormalized
  cases hnormalized
  obtain ⟨_, _, h⟩ := of_bind h
  cases h
  exact ⟨rfl, rfl, rfl, rfl⟩

/-- `sessionCompactionSink`, over the tables a call finds. -/
def sessionCompactionSink (cfg : Sessions.Config) (s : Sessions.Tables) (newID : UUID) :
    CompactionSink where
  persist input :=
    (Sessions.Tables.createCompaction cfg s input newID).map fun r => sessionCompactionHead r.1
  persist_head h := by
    obtain ⟨⟨stored, s'⟩, hstored, rfl⟩ := map_eq_ok.1 h
    exact sessionCompactionHead_createCompaction hstored

inductive CompactionHookEvent where
  | preCompact
  | postCompact

/-! ## Counting -/

/-- `TokenLimitEvent.IsOverBudget`, with the token counter as an argument. -/
def TokenLimitEvent.isOverBudget (count : List Elelem.Message → Except Err Int)
    (event : TokenLimitEvent) : Except Err Bool × TokenLimitEvent :=
  match count event.messages with
  | .error e => (.error e, event)
  | .ok tokens => (.ok (tokens > event.budgetTokens), { event with estimatedTokens := tokens })

/-- The rooms below the configured one, down to the smallest a summary is asked to fit. -/
def smallerRooms : Nat → Nat → List Nat
  | 0, _ => []
  | fuel + 1, room =>
    if room ≥ compactionMinimumSummaryTokens then
      room :: smallerRooms fuel (room / compactionSummaryRoomDivisor)
    else []

/-- `compactionSummaryRooms`. Halving reaches the smallest room within that many steps. -/
def compactionSummaryRooms (configured : Nat) : List Nat :=
  configured :: smallerRooms configured (configured / compactionSummaryRoomDivisor)

/-! ## The parts of `handle` -/

namespace Compactor

section
variable (c : Compactor) (messages : List Elelem.Message)
  (count : List Elelem.Message → Except Err Int) (units : Nat)

/-- The summary in the place of the covered messages. -/
def replacePrefix (content : String) : List Elelem.Message :=
  messages.take c.plan.summaryStart ++ compactionSummaryMessage content ::
    messages.drop (c.plan.leadCount + c.plan.messageCount units)

/-- `estimates[units-1]`, counted when it is not there yet. -/
def estimate (original : List Elelem.Message) (units : Nat) (estimates : List Int)
    (event : TokenLimitEvent) : Except Err (Int × List Int) × TokenLimitEvent :=
  match estimates[units - 1]? with
  | some tokens => (.ok (tokens, estimates), event)
  | none =>
    match TokenLimitEvent.isOverBudget count
        { event with messages := c.replacePrefix original units compactionSummaryLead } with
    | (.error e, event) => (.error e, event)
    | (.ok _, event) => (.ok (event.estimatedTokens, estimates ++ [event.estimatedTokens]), event)

/-- The inner loop of `selectPrefix`: the first of the prefixes that leaves the room. -/
def tryUnits (c : Compactor) (count : List Elelem.Message → Except Err Int)
    (original : List Elelem.Message) (room : Nat) :
    List Nat → List Int → TokenLimitEvent →
      Except Err (Option Nat × List Int) × TokenLimitEvent
  | [], estimates, event => (.ok (none, estimates), event)
  | units :: rest, estimates, event =>
    match c.estimate count original units estimates event with
    | (.error e, event) => (.error e, event)
    | (.ok (tokens, estimates), event) =>
      if tokens + room ≤ event.budgetTokens then (.ok (some units, estimates), event)
      else c.tryUnits count original room rest estimates event

/-- The outer loop of `selectPrefix`, over the rooms. -/
def tryRooms (c : Compactor) (count : List Elelem.Message → Except Err Int)
    (original : List Elelem.Message) (coverable : Nat) :
    List Nat → List Int → TokenLimitEvent → Except Err (Nat × Nat) × TokenLimitEvent
  | [], _, event => (.error ⟨.compactionUnavailable, toString coverable ++
      " eligible units do not free the " ++
      toString (min c.maxOutputTokens compactionMinimumSummaryTokens) ++
      " token minimum summary room"⟩, event)
  | room :: rooms, estimates, event =>
    match c.tryUnits count original room (List.range' 1 coverable) estimates event with
    | (.error e, event) => (.error e, event)
    | (.ok (some units, _), event) => (.ok (units, room), event)
    | (.ok (none, estimates), event) => c.tryRooms count original coverable rooms estimates event

/-- `selectPrefix`: the units to cover and the summary's room. The messages of the event are put
back in any case. -/
def selectPrefix (c : Compactor) (event : TokenLimitEvent) :
    Except Err (Nat × Nat) × TokenLimitEvent :=
  let coverable := c.plan.coverableUnits
  if coverable = 0 then
    (.error ⟨.compactionUnavailable, "no completed history is eligible for compaction"⟩, event)
  else
    let r := c.tryRooms count event.messages coverable (compactionSummaryRooms c.maxOutputTokens)
      [] event
    (r.1, { r.2 with messages := event.messages })

def hookPayload (event : TokenLimitEvent) (units messages : Nat) (summaryTokens : Int) :
    CompactionHookPayload :=
  ⟨c.workspace, event.estimatedTokens, event.budgetTokens, event.round, units, messages,
    summaryTokens⟩

/-- The text of a message's parts, `Message.Text`. -/
def messageText (content : List Elelem.Part) : String :=
  String.join (content.map fun
    | .text text => text
    | .image _ _ => "")

def writeCompactionMessage (message : Elelem.Message) : String :=
  message.role.text ++ ": " ++ messageText message.content ++ "\n" ++
  String.join (message.content.map fun
    | .text _ => ""
    | .image _ mediaType => "[image " ++ mediaType ++ "]\n") ++
  String.join (message.toolCalls.map fun call =>
    "tool call " ++ call.name ++ " " ++ call.arguments ++ "\n")

/-- `renderTranscript`: the active summary when there is one, then the messages covered. -/
def renderTranscript : String :=
  let covered := (messages.take (c.plan.leadCount + c.plan.messageCount units)).drop
    c.plan.summaryStart
  "<prior-conversation>\n" ++ String.join (covered.map writeCompactionMessage) ++
    "</prior-conversation>"

/-- `compactionInput`. `none` stands for the panic of a prefix the plan does not have. -/
def compactionInput (text : String) (summary : CompactionSummary) : Option CompactionInput := do
  let first ← (c.plan.units.take units).head?
  let last ← (c.plan.units.take units).getLast?
  let input : CompactionInput := {
    id := UUID.nil
    fromMessageID := first.fromMessageID
    toMessageID := last.toMessageID
    fromSequence := first.fromSequence
    toSequence := last.toSequence
    directFromSequence := first.fromSequence
    directToSequence := last.toSequence
    summary := text
    sourceMessageCount := c.plan.messageCount units
    inputTokenCount := summary.inputTokens
    summaryTokenCount := summary.outputTokens
    modelID := summary.modelID
    promptHash := c.promptHash
    supersedesCompactionID := none }
  match c.active with
  | none => some input
  | some active => some { input with
      fromMessageID := active.fromMessageID
      fromSequence := active.fromSequence
      sourceMessageCount := input.sourceMessageCount + active.sourceMessageCount
      supersedesCompactionID := some active.id }

end

end Compactor

/-! ## `handle` -/

/-- A way to select a prefix: whatever it selects is coverable, and it leaves the messages alone. -/
structure PrefixSelector where
  select : Compactor → TokenLimitEvent → Except Err (Nat × Nat) × TokenLimitEvent
  coverable : ∀ {c : Compactor} {event : TokenLimitEvent} {units room : Nat},
    (select c event).1 = .ok (units, room) → 1 ≤ units ∧ units ≤ c.plan.coverableUnits
  messages : ∀ (c : Compactor) (event : TokenLimitEvent),
    (select c event).2.messages = event.messages

/-- What `handle` meets outside: the counter, the hooks, the model, the sink, and the order in which
prefixes are tried. Logs and metrics are left out. -/
structure CompactionCall where
  /-- `refresh`, when the compactor has one: the plan and the chain head it rereads. -/
  refresh : Option (Except Err (ReconstructionPlan × Option CompactionHead))
  selector : PrefixSelector
  count : List Elelem.Message → Except Err Int
  hook : CompactionHookEvent → CompactionHookPayload → Except Err Unit
  summarize : String → Except Err CompactionSummary
  sink : CompactionSink
  dropOldestUnits : TokenLimitEvent → Except Err Unit × TokenLimitEvent

/-- How a call of `handle` ends: a stored row with its head and summary, the oldest units left out,
or an error. -/
inductive CompactionOutcome where
  | compacted (input : CompactionInput) (head : CompactionHead)
  | dropped
  | failed (e : Err)

namespace CompactionCall

section
variable (call : CompactionCall)

section
variable (c : Compactor) (event : TokenLimitEvent) (units : Nat)

def reloadPlan : Except Err Compactor :=
  match call.refresh with
  | none => .ok c
  | some (.error e) => .error e
  | some (.ok (plan, active)) => .ok { c with plan := plan, active := active }

/-- `commit`. The row is stored only when the recount fits. -/
def commit (text : String) (summary : CompactionSummary) :
    CompactionOutcome × Compactor × TokenLimitEvent :=
  let original := event.messages
  let replaced := { event with
    messages := c.replacePrefix original units (compactionSummaryLead ++ text) }
  match replaced.isOverBudget call.count with
  | (.error e, event) => (.failed e, c, { event with messages := original })
  | (.ok true, event) =>
    (.failed ⟨.compactionInsufficient, toString event.estimatedTokens ++ " tokens against a " ++
      toString event.budgetTokens ++ " budget after summarizing"⟩, c,
      { event with messages := original })
  | (.ok false, event) =>
    match c.compactionInput units text summary with
    | none => (.failed ⟨.panicked, "slice bounds out of range"⟩, c, event)
    | some input =>
      match call.sink.persist input with
      | .error e => (.failed e, c, { event with messages := original })
      | .ok head =>
        (.compacted input head, { c with active := some head, plan := c.plan.advance units }, event)

def handleUnselectablePrefix (e : Err) : CompactionOutcome × Compactor × TokenLimitEvent :=
  if e.kind ≠ .compactionUnavailable then (.failed e, c, event)
  else
    match call.dropOldestUnits event with
    | (.error e, event) => (.failed e, c, event)
    | (.ok (), event) => (.dropped, c, event)

/-- `handle` behind the selection: hooks, summary and commit. A hook that fails after the commit is
only logged. -/
def compact : CompactionOutcome × Compactor × TokenLimitEvent :=
  match call.hook .preCompact (c.hookPayload event units (c.plan.messageCount units) 0) with
  | .error e => (.failed e, c, event)
  | .ok () =>
    match call.summarize (c.renderTranscript event.messages units) with
    | .error e => (.failed e, c, event)
    | .ok summary =>
      let text := String.ofList (trimSpace summary.text.toList)
      if text = "" then
        (.failed ⟨.compactionEmptySummary, "the compaction model returned no summary"⟩, c, event)
      else call.commit c event units text summary

/-- `compactor.handle`: verify, select a prefix, summarise, recount, store, advance. Where no prefix
helps the oldest units are left out. -/
def handle : CompactionOutcome × Compactor × TokenLimitEvent :=
  match call.reloadPlan c with
  | .error e => (.failed e, c, event)
  | .ok c =>
    match c.plan.verify event.messages with
    | .error e => (.failed e, c, event)
    | .ok () =>
      match call.selector.select c event with
      | (.error e, event) => call.handleUnselectablePrefix c event e
      | (.ok (units, room), event) => call.compact { c with room := room } event units

end

end

end CompactionCall

/-! ## What `selectPrefix` selects -/

section
variable {c : Compactor}

theorem Compactor.tryUnits_mem {room units : Nat} {tried : List Nat} {estimates left : List Int}
    {event : TokenLimitEvent}
    (h : (c.tryUnits count original room tried estimates event).1 = .ok (some units, left)) :
    units ∈ tried := by
  induction tried generalizing estimates event with
  | nil => exact absurd h (by simp [tryUnits])
  | cons first rest ih =>
    rw [tryUnits] at h
    split at h
    · exact nomatch h
    · split at h
      · cases h
        exact List.mem_cons_self
      · exact List.mem_cons_of_mem _ (ih h)

theorem Compactor.tryRooms_coverable {coverable units room : Nat} {rooms : List Nat}
    {estimates : List Int} {event : TokenLimitEvent}
    (h : (c.tryRooms count original coverable rooms estimates event).1 = .ok (units, room)) :
    1 ≤ units ∧ units ≤ coverable := by
  induction rooms generalizing estimates event with
  | nil => exact nomatch h
  | cons first rooms ih =>
    rw [tryRooms] at h
    split at h
    · exact nomatch h
    next hunits =>
      cases h
      have hmem := Compactor.tryUnits_mem (congrArg Prod.fst hunits)
      rw [List.mem_range'_1] at hmem
      omega
    · exact ih h

end

/-- The order of the source: the smallest prefix that helps. -/
def PrefixSelector.source (count : List Elelem.Message → Except Err Int) : PrefixSelector where
  select := Compactor.selectPrefix count
  coverable := by
    intro c event units room h
    rw [Compactor.selectPrefix] at h
    dsimp only at h
    split at h
    · exact nomatch h
    · exact Compactor.tryRooms_coverable h
  messages := by
    intro c event
    rw [Compactor.selectPrefix]
    dsimp only
    split <;> rfl

/-! ## What a call does -/

/-- A call that compacted: the plan verified, a coverable prefix was selected, its summary is not
empty, the row stored is the prefix's, and the prefix's messages were replaced. -/
structure CompactionCall.Compacted (call : CompactionCall) (c : Compactor)
    (messages : List Elelem.Message) (input : CompactionInput) (head : CompactionHead)
    (c' : Compactor) (messages' : List Elelem.Message) : Prop where
  verified : c.plan.verify messages = .ok ()
  selected : ∃ units text summary, 1 ≤ units ∧ units ≤ c.plan.coverableUnits ∧ text ≠ "" ∧
    c.compactionInput units text summary = some input ∧
    c'.plan = c.plan.advance units ∧
    messages' = c.replacePrefix messages units (compactionSummaryLead ++ text)
  stored : call.sink.persist input = .ok head
  active : c'.active = some head

theorem CompactionCall.commit_compacted {call : CompactionCall} {c c' : Compactor}
    {event event' : TokenLimitEvent} {units : Nat} {text : String} {summary : CompactionSummary}
    {input : CompactionInput} {head : CompactionHead}
    (h : call.commit c event units text summary = (.compacted input head, c', event')) :
    c.compactionInput units text summary = some input ∧ call.sink.persist input = .ok head ∧
      c' = { c with active := some head, plan := c.plan.advance units } ∧
      event'.messages = c.replacePrefix event.messages units (compactionSummaryLead ++ text) := by
  rw [commit, TokenLimitEvent.isOverBudget] at h
  split at h
  · cases h
  · cases h
  next hover =>
    split at hover
    · cases hover
    · obtain ⟨-, rfl⟩ := Prod.mk.inj hover
      split at h
      · cases h
      next hinp =>
        split at h
        · cases h
        next hsto =>
          cases h
          exact ⟨hinp, hsto, rfl, rfl⟩

/-- **What a call that compacted did**, on the compactor as it is after the reload. -/
theorem CompactionCall.handle_compacted {call : CompactionCall} {c c' : Compactor}
    {event event' : TokenLimitEvent} {input : CompactionInput} {head : CompactionHead}
    (h : call.handle c event = (.compacted input head, c', event')) :
    ∃ reloaded, call.reloadPlan c = .ok reloaded ∧
      call.Compacted reloaded event.messages input head c' event'.messages := by
  rw [handle] at h
  split at h
  · cases h
  next reloaded hreload =>
    refine ⟨reloaded, hreload, ?_⟩
    split at h
    · cases h
    next hver =>
      split at h
      · rw [handleUnselectablePrefix] at h
        split at h
        · cases h
        · split at h <;> cases h
      next units room selected hselect =>
        have hmsgs : selected.messages = event.messages := by
          have := call.selector.messages reloaded event
          rwa [hselect] at this
        have hcov := call.selector.coverable (congrArg Prod.fst hselect)
        rw [compact] at h
        split at h
        · cases h
        · split at h
          · cases h
          next summary _ =>
            dsimp only at h
            split at h
            · cases h
            next htext =>
              obtain ⟨hinp, hsto, rfl, hrep⟩ := commit_compacted h
              rw [hmsgs] at hrep
              exact ⟨hver, ⟨units, String.ofList (trimSpace summary.text.toList), summary, hcov.1,
                hcov.2, htext, hinp, rfl, hrep⟩, hsto, rfl⟩

end Peen
