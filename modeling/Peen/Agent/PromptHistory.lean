import Peen.Agent.PairToolResults
import Peen.Agent.Reconstruction

/-!
# The prompt of a stored history

`promptFromHistory` assembles the prompt a turn starts from: the system prompt, the summary of the
active compaction, and the stored rows, paired and converted one to one.
-/

namespace Peen

open List

/-! ## Prompts -/

namespace Elelem

structure Prompt where
  system : String
  systemAppends : List String
  messages : List Message
  deriving DecidableEq

namespace Prompt

def new : Prompt := ⟨"", [], []⟩

def withSystem (p : Prompt) (message : String) : Prompt := { p with system := message }

def add (p : Prompt) (message : Message) : Prompt :=
  if message.origin = .injection then p
  else
    let origin := if message.origin = .unknown then .turn else message.origin
    { p with messages := p.messages ++ [{ message with origin := origin }] }

def withHistory (p : Prompt) (messages : List Message) : Prompt :=
  { p with messages := p.messages ++
      (messages.filter (·.origin ≠ .injection)).map fun m => { m with origin := .seed } }

def systemMessage (p : Prompt) : String :=
  "\n\n".intercalate ((p.system :: p.systemAppends).filter fun s => !isBlank s)

/-- `Messages`: the system message first when there is one, then everything else in order. -/
def assembled (p : Prompt) : List Message :=
  let system := p.systemMessage
  (if system = "" then [] else [⟨.system, [.text system], [], "", false, "", none, .seed⟩]) ++
    p.messages

end Prompt

end Elelem

def compactionSummaryLead : String :=
  "Summary of earlier conversation in this session, replacing the messages it covers:\n"

def compactionSummaryMessage (content : String) : Elelem.Message :=
  ⟨.user, [.text content], [], "", false, "", none, .seed⟩

/-! ## Conversion -/

/-- `imageBytes`: the bytes of the images loaded, by their blob. -/
abbrev ImageBytes := String → Option (List UInt8)

section
variable (text : String) (systemPrompt : String) (history : History) (images : ImageBytes)
  (message : Message)

def resolveImages (images : ImageBytes) : List StoredImage → Except Err (List Elelem.Part)
  | [] => .ok []
  | image :: stored =>
    match images image.blob with
    | none => .error ⟨.invalidState, "message image " ++ image.blob ++ " was not loaded"⟩
    | some data => (.image data image.mediaType :: ·) <$> resolveImages images stored

def contentWithImages (images : List Elelem.Part) : List Elelem.Part :=
  if images = [] then [.text text]
  else (if text = "" then [] else [.text text]) ++ images

def messageContent (imagesJSON : Option (List StoredImage)) (images : ImageBytes) :
    Except Err (List Elelem.Part) :=
  match imagesJSON with
  | none => .error ⟨.encoding, "decode stored message images"⟩
  | some stored => contentWithImages text <$> resolveImages images stored

def storedProviderReasoning (stored : String) : Option String :=
  if stored = "" then none else some stored

/-- What `json.Unmarshal` makes of stored tool calls. -/
def unmarshalToolCalls : Option (List ToolCall) → Except Err (List ToolCall)
  | none => .error ⟨.encoding, "unmarshal stored tool calls"⟩
  | some calls => .ok calls

def elelemMessage : Except Err Elelem.Message := do
  let role ← elelemRole message.role
  let toolCalls ← unmarshalToolCalls message.toolCallsJSON
  let content ← messageContent message.content message.imagesJSON images
  pure {
    role := role
    content := content
    toolCalls := toolCalls
    toolCallID := message.toolCallID
    toolResultIsError := message.isError
    reasoning := message.thinking
    providerReasoning := storedProviderReasoning message.providerReasoningJSON
    origin := .unknown }

def planLeadCount : Nat :=
  (if systemPrompt ≠ "" then 1 else 0) + (if history.compaction.isSome then 1 else 0)

/-- The prompt before the history: the system prompt, and the summary when there is one. -/
def leadPrompt : Elelem.Prompt :=
  let prompt := Elelem.Prompt.new.withSystem systemPrompt
  match history.compaction with
  | none => prompt
  | some compaction =>
    prompt.add (compactionSummaryMessage (compactionSummaryLead ++ compaction.summary))

/-- System prompt, summary and rows, and the plan that maps the messages back to the rows. -/
def promptFromHistory : Except Err (Elelem.Prompt × ReconstructionPlan) := do
  let rows ← pairToolResults history.messages
  let messages ← rows.mapM (elelemMessage images)
  let plan ← buildReconstructionPlan (planLeadCount systemPrompt history)
    history.compaction.isSome rows
  pure ((leadPrompt systemPrompt history).withHistory messages, plan)

/-! ## What a provider accepts -/

def Message.isTool : Bool := message.role == .tool

end

/-- Rows a provider accepts: the calls of every reply parse, each is answered by exactly one of the
tool messages directly after the reply, and every tool message answers such a call. -/
structure Replayable (rows : List Message) : Prop where
  parsed : ∀ m ∈ rows, m.role = .assistant → m.toolCallsJSON = some m.calls
  answered : ∀ before reply after, rows = before ++ reply :: after → reply.role = .assistant →
    ∀ call ∈ reply.calls, (after.takeWhile Message.isTool).countP (·.toolCallID == call.id) = 1
  answering : ∀ before t after, rows = before ++ t :: after → t.role = .tool →
    ∃ earlier reply between, before = earlier ++ reply :: between ∧ reply.role = .assistant ∧
      (∀ m ∈ between, m.role = .tool) ∧ ∃ call ∈ reply.calls, call.id = t.toolCallID

/-- What a row keeps: everything but its role, text, calls, call ID and error mark; of its calls
nothing is added; a reply that lost all its calls has a text; the text of a result is still there. -/
structure RowKept (old new : Message) : Prop where
  same : new = { old with
    role := new.role
    content := new.content
    toolCallsJSON := new.toolCallsJSON
    toolCallID := new.toolCallID
    isError := new.isError }
  calls : new.calls.Sublist old.calls
  notEmpty : old.role = .assistant → old.calls ≠ [] → new.calls = [] → new.content ≠ ""
  text : old.role = .tool → ∃ lead, new.content = lead ++ old.content

/-- A row that converts: its role exists, its calls parse, and its images are loaded. -/
structure Convertible (images : ImageBytes) (message : Message) : Prop where
  role : ∃ role, elelemRole message.role = .ok role
  calls : ∃ calls, message.toolCallsJSON = some calls
  loaded : ∃ stored, message.imagesJSON = some stored ∧
    ∀ image ∈ stored, ∃ data, images image.blob = some data

theorem Rewritten.rowKept {old new : Message} (h : Rewritten old new) : RowKept old new := by
  cases h with
  | kept =>
    refine ⟨rfl, Sublist.refl _, ?_, fun _ => ⟨"", by rw [String.empty_append]⟩⟩
    exact fun _ hcl hnone => absurd hnone hcl
  | late names hrole =>
    refine ⟨rfl, Sublist.refl _, ?_, fun _ => ⟨_, rfl⟩⟩
    exact fun hasst => by rw [hrole] at hasst; cases hasst
  | @trimmed calls unanswered hrole hprs =>
    have hcl : old.calls = calls := by rw [Message.calls, hprs]; rfl
    refine ⟨rfl, ?_, ?_, fun htool => by rw [hrole] at htool; cases htool⟩
    · rw [hcl]
      exact filter_sublist
    · intro _ _ hnone
      show (if _ ∧ old.content = "" then unansweredReplyText else old.content) ≠ ""
      split
      · exact fun h => absurd h (by decide)
      next hcont =>
        exact fun h => hcont ⟨hnone, h⟩

variable {rows : List Message}

theorem Rewritten.convertible {old new : Message} (h : Rewritten old new)
    (hold : Convertible images old) : Convertible images new := by
  obtain ⟨hrole, hcl, hld⟩ := hold
  cases h with
  | kept => exact ⟨hrole, hcl, hld⟩
  | late => exact ⟨⟨.system, rfl⟩, hcl, hld⟩
  | trimmed => exact ⟨hrole, ⟨_, rfl⟩, hld⟩

/-! ## Paired rows are accepted -/

theorem Paired.takeWhile_isTool (h : Paired rows) : rows.takeWhile Message.isTool = [] := by
  cases h with
  | nil => rfl
  | single htool _ _ => exact takeWhile_cons_of_neg (by simpa [Message.isTool] using htool)
  | reply hans _ =>
    exact takeWhile_cons_of_neg (by simp [Message.isTool, hans.assistant])

theorem Answers.takeWhile_isTool {reply : Message} {results rest : List Message}
    (h : Answers reply results) (hrest : Paired rest) :
    (results ++ rest).takeWhile Message.isTool = results := by
  rw [takeWhile_append_of_pos, hrest.takeWhile_isTool, append_nil]
  exact fun t ht => by simp [Message.isTool, h.tools t ht]

theorem Answers.countP_eq_one {reply : Message} {results : List Message} (h : Answers reply results)
    {call : ToolCall} (hcall : call ∈ reply.calls) :
    results.countP (·.toolCallID == call.id) = 1 := by
  have hmem := (h.covers call.id).mpr (mem_map.mpr ⟨call, hcall, rfl⟩)
  have hct := count_eq_one_of_mem h.once hmem
  rwa [count, countP_map] at hct

/-- **Paired rows are rows a provider accepts.** -/
theorem Paired.replayable (h : Paired rows) : Replayable rows := by
  induction h with
  | nil =>
    refine ⟨nofun, fun before _ _ h => ?_, fun before _ _ h => ?_⟩
    all_goals exact absurd h.symm (by simp)
  | @single message rest htool hasst _ ih =>
    refine ⟨?_, ?_, ?_⟩
    · intro m hm hrole
      rcases mem_cons.mp hm with rfl | hm
      · exact absurd hrole hasst
      · exact ih.parsed m hm hrole
    · intro before reply after hrows hrole
      rcases cons_eq_append_iff.mp hrows with ⟨-, h⟩ | ⟨before', -, h⟩
      · cases h
        exact absurd hrole hasst
      · exact ih.answered before' reply after h hrole
    · intro before t after hrows hrole
      rcases cons_eq_append_iff.mp hrows with ⟨-, h⟩ | ⟨before', rfl, h⟩
      · cases h
        exact absurd hrole htool
      · obtain ⟨earlier, reply, between, rfl, hreply⟩ := ih.answering before' t after h hrole
        exact ⟨message :: earlier, reply, between, rfl, hreply⟩
  | @reply reply results rest hans hpd ih =>
    refine ⟨?_, ?_, ?_⟩
    · intro m hm hrole
      rcases mem_cons.mp hm with rfl | hm
      · exact hans.parsed
      · rcases mem_append.mp hm with hm | hm
        · rw [hans.tools m hm] at hrole
          cases hrole
        · exact ih.parsed m hm hrole
    · intro before other after hrows hrole call hcall
      rcases cons_eq_append_iff.mp hrows with ⟨-, h⟩ | ⟨before', -, h⟩
      · cases h
        rw [hans.takeWhile_isTool hpd]
        exact hans.countP_eq_one hcall
      · rcases append_eq_append_iff.mp h with ⟨between, -, hrest⟩ | ⟨between, hres, hrest⟩
        · exact ih.answered between other after hrest hrole call hcall
        · cases between with
          | nil => exact ih.answered [] other after hrest.symm hrole call hcall
          | cons =>
            cases hrest
            rw [hans.tools other (by rw [hres]; simp)] at hrole
            cases hrole
    · intro before t after hrows hrole
      rcases cons_eq_append_iff.mp hrows with ⟨-, h⟩ | ⟨before', rfl, h⟩
      · cases h
        rw [hans.assistant] at hrole
        cases hrole
      · have later : ∀ between, rest = between ++ t :: after →
            ∃ earlier other between', reply :: (results ++ between) =
              earlier ++ other :: between' ∧ other.role = .assistant ∧
              (∀ m ∈ between', m.role = .tool) ∧ ∃ call ∈ other.calls, call.id = t.toolCallID := by
          intro between hrest
          obtain ⟨earlier, other, between', rfl, hoth⟩ := ih.answering between t after hrest hrole
          exact ⟨reply :: (results ++ earlier), other, between', by simp, hoth⟩
        rcases append_eq_append_iff.mp h with ⟨between, rfl, hrest⟩ | ⟨between, hres, hrest⟩
        · exact later between hrest
        · cases between with
          | nil =>
            have hbef : before' = results := by rw [hres, append_nil]
            have := later [] hrest.symm
            rwa [append_nil, ← hbef] at this
          | cons m between =>
            cases hrest
            have hmem : t ∈ results := by rw [hres]; simp
            obtain ⟨call, hcall, hid⟩ := mem_map.mp
              ((hans.covers _).mp (mem_map.mpr ⟨t, hmem, rfl⟩))
            refine ⟨[], reply, before', rfl, hans.assistant, ?_, call, hcall, hid⟩
            intro m hm
            exact hans.tools m (by rw [hres]; exact mem_append_left _ hm)

/-- A block of paired rows: a reply with all of its results, or another row alone. -/
structure Block (block : Message × List Message) : Prop where
  head : block.1.role ≠ .tool
  reply : block.1.role = .assistant → Answers block.1 block.2
  alone : block.1.role ≠ .assistant → block.2 = []

theorem Block.tools {block : Message × List Message} (h : Block block) :
    ∀ t ∈ block.2, t.role = .tool := by
  by_cases hrole : block.1.role = .assistant
  · exact (h.reply hrole).tools
  · rw [h.alone hrole]
    exact nofun

theorem Paired.blocks (h : Paired rows) :
    ∃ blocks : List (Message × List Message), blocks.flatMap blockRows = rows ∧
      ∀ b ∈ blocks, Block b := by
  induction h with
  | nil => exact ⟨[], rfl, nofun⟩
  | @single message rest htool hasst _ ih =>
    obtain ⟨blocks, rfl, hbl⟩ := ih
    refine ⟨(message, []) :: blocks, rfl, fun b hb => ?_⟩
    rcases mem_cons.mp hb with rfl | hb
    · exact ⟨htool, fun h => absurd h hasst, fun _ => rfl⟩
    · exact hbl b hb
  | @reply reply results rest hans _ ih =>
    obtain ⟨blocks, rfl, hbl⟩ := ih
    refine ⟨(reply, results) :: blocks, rfl, fun b hb => ?_⟩
    rcases mem_cons.mp hb with rfl | hb
    · refine ⟨?_, fun _ => hans, fun h => absurd hans.assistant h⟩
      intro h
      rw [hans.assistant] at h
      cases h
    · exact hbl b hb

/-! ## Conversion keeps roles -/

theorem elelemMessage_ok {message : Message} {converted : Elelem.Message}
    (h : elelemMessage images message = .ok converted) :
    Converted message converted ∧ converted.origin = .unknown := by
  rw [elelemMessage, bind_eq_ok] at h
  obtain ⟨role, hrole, h⟩ := h
  obtain ⟨calls, -, h⟩ := bind_eq_ok.mp h
  obtain ⟨content, -, h⟩ := bind_eq_ok.mp h
  cases h
  exact ⟨hrole, rfl⟩

theorem resolveImages_ok {stored : List StoredImage}
    (h : ∀ image ∈ stored, ∃ data, images image.blob = some data) :
    ∃ parts, resolveImages images stored = .ok parts := by
  induction stored with
  | nil => exact ⟨[], rfl⟩
  | cons image stored ih =>
    obtain ⟨data, hdata⟩ := h image mem_cons_self
    obtain ⟨parts, hparts⟩ := ih fun image hi => h image (mem_cons_of_mem _ hi)
    exact ⟨_, by rw [resolveImages, hdata, hparts]; rfl⟩

theorem Convertible.elelemMessage {message : Message} (h : Convertible images message) :
    ∃ converted, elelemMessage images message = .ok converted := by
  obtain ⟨⟨role, hrole⟩, ⟨calls, hcl⟩, stored, hsto, hld⟩ := h
  obtain ⟨parts, hparts⟩ := resolveImages_ok hld
  have hcont : messageContent message.content message.imagesJSON images =
      .ok (contentWithImages message.content parts) := by
    rw [hsto]
    show contentWithImages message.content <$> resolveImages images stored = _
    rw [hparts]
    rfl
  rw [Peen.elelemMessage, hrole, hcl, hcont]
  exact ⟨_, rfl⟩

theorem mapM_elelemMessage_ok {messages : List Elelem.Message}
    (h : rows.mapM (elelemMessage images) = .ok messages) :
    Forall₂ (fun row m => Converted row m ∧ m.origin = .unknown) rows messages := by
  induction rows generalizing messages with
  | nil =>
    cases h
    exact .nil
  | cons row rows ih =>
    rw [mapM_cons, bind_eq_ok] at h
    obtain ⟨converted, hconv, h⟩ := h
    obtain ⟨rest, hrest, h⟩ := bind_eq_ok.mp h
    cases h
    exact .cons (elelemMessage_ok hconv) (ih hrest)

theorem mapM_elelemMessage_of_convertible (h : ∀ m ∈ rows, Convertible images m) :
    ∃ messages, rows.mapM (elelemMessage images) = .ok messages := by
  induction rows with
  | nil => exact ⟨[], rfl⟩
  | cons row rows ih =>
    obtain ⟨converted, hconv⟩ := (h row mem_cons_self).elelemMessage
    obtain ⟨messages, hmsgs⟩ := ih fun m hm => h m (mem_cons_of_mem _ hm)
    refine ⟨converted :: messages, ?_⟩
    rw [mapM_cons, hconv, hmsgs]
    rfl

theorem withHistory_messages {messages : List Elelem.Message}
    (h : Forall₂ (fun row m => Converted row m ∧ m.origin = .unknown) rows messages)
    (p : Elelem.Prompt) :
    ∃ stamped, (p.withHistory messages).messages = p.messages ++ stamped ∧
      Forall₂ Converted rows stamped := by
  refine ⟨_, rfl, ?_⟩
  induction h with
  | nil => exact .nil
  | @cons row m rows messages hm _ ih =>
    rw [filter_cons_of_pos (by simp [hm.2]), map_cons]
    exact .cons hm.1 ih

/-! ## The assembled prompt -/

theorem buildReconstructionPlan_blocks {blocks : List (Message × List Message)}
    (hbl : ∀ b ∈ blocks, Block b)
    (hro : ∀ m ∈ blocks.flatMap blockRows, ∃ role, elelemRole m.role = .ok role)
    (leadCount : Nat) (hasSummary : Bool) :
    ∃ units, Forall₂ ReconstructionUnit.Holds units blocks ∧
      buildReconstructionPlan leadCount hasSummary (blocks.flatMap blockRows) =
        .ok ⟨leadCount, hasSummary, units⟩ := by
  have hheads : ∀ b ∈ blocks, ∃ role, elelemRole b.1.role = .ok role := fun b hb =>
    hro b.1 (mem_flatMap.mpr ⟨b, hb, mem_cons_self⟩)
  obtain ⟨units, hunits, hfold⟩ := addRow_blocks [] blocks hheads
    (fun b hb => (hbl b hb).head) (fun b hb => (hbl b hb).tools)
  refine ⟨units, hunits, ?_⟩
  rw [buildReconstructionPlan, hfold]
  rfl

theorem assembled_drop (systemPrompt : String) (history : History) (messages : List Elelem.Message)
    (prompt : Elelem.Prompt) (hsystem : prompt.systemMessage = systemPrompt)
    (hmsgs : prompt.messages = (leadPrompt systemPrompt history).messages ++ messages) :
    planLeadCount systemPrompt history ≤ prompt.assembled.length ∧
      prompt.assembled.drop (planLeadCount systemPrompt history) = messages := by
  have hlead : ∃ lead : List Elelem.Message, lead.length = planLeadCount systemPrompt history ∧
      prompt.assembled = lead ++ messages := by
    refine ⟨(if systemPrompt = "" then []
      else [⟨.system, [.text systemPrompt], [], "", false, "", none, .seed⟩]) ++
      (leadPrompt systemPrompt history).messages, ?_, ?_⟩
    · rw [length_append, planLeadCount]
      congr 1
      · by_cases h : systemPrompt = "" <;> simp [h]
      · rw [leadPrompt]
        cases history.compaction with
        | none | some => rfl
    · rw [Elelem.Prompt.assembled, hsystem, hmsgs, append_assoc]
  obtain ⟨lead, hlen, hassembled⟩ := hlead
  rw [hassembled, ← hlen]
  exact ⟨by simp, drop_left⟩

theorem promptFromHistory_systemMessage {systemPrompt : String} {history : History}
    {prompt : Elelem.Prompt} {plan : ReconstructionPlan}
    (h : promptFromHistory systemPrompt history images = .ok (prompt, plan))
    (hblank : isBlank systemPrompt = false) : prompt.systemMessage = systemPrompt := by
  rw [promptFromHistory, bind_eq_ok] at h
  obtain ⟨rows, -, h⟩ := h
  obtain ⟨messages, -, h⟩ := bind_eq_ok.mp h
  obtain ⟨plan', -, h⟩ := bind_eq_ok.mp h
  cases h
  have hlead : (leadPrompt systemPrompt history).system = systemPrompt ∧
      (leadPrompt systemPrompt history).systemAppends = [] := by
    rw [leadPrompt]
    cases history.compaction with
    | none | some => exact ⟨rfl, rfl⟩
  show "\n\n".intercalate (((leadPrompt systemPrompt history).system ::
    (leadPrompt systemPrompt history).systemAppends).filter _) = _
  rw [hlead.1, hlead.2]
  simp [hblank]

/-- **Replayed history is one a provider accepts.** For stored rows in which the calls of each reply
have distinct IDs, pairing succeeds, keeps every row in its place, returns rows a provider accepts
and leaves those as they are. The prompt assembled from them exists when the rows convert, and its
plan verifies against its messages, each unit holding a reply with all of its results. The library
is assumed to place the system prompt it was given, whole, before the rest. -/
theorem promptFromHistory_replayable (history : List Message) (hcalls : DistinctCalls history) :
    ∃ rows, pairToolResults history = .ok rows ∧
      Forall₂ RowKept history rows ∧
      Replayable rows ∧
      pairToolResults rows = .ok rows ∧
      ∀ (systemPrompt : String) (compaction : Option Compaction) (images : ImageBytes),
        ((∀ m ∈ history, Convertible images m) →
          ∃ prompt plan,
            promptFromHistory systemPrompt ⟨compaction, history⟩ images = .ok (prompt, plan)) ∧
        ∀ prompt plan,
          promptFromHistory systemPrompt ⟨compaction, history⟩ images = .ok (prompt, plan) →
          prompt.systemMessage = systemPrompt →
            plan.verify prompt.assembled = .ok () ∧
            ∃ blocks : List (Message × List Message), blocks.flatMap blockRows = rows ∧
              Forall₂ ReconstructionUnit.Holds plan.units blocks ∧
              ∀ b ∈ blocks, (b.1.role = .assistant → Answers b.1 b.2) ∧
                (b.1.role ≠ .assistant → b.2 = []) := by
  obtain ⟨rows, hrows, hpaired, hrewritten⟩ :=
    pairFrom_paired history.length (fun _ => "") history (Nat.le_refl _) hcalls
  refine ⟨rows, hrows, hrewritten.imp fun _ _ h => h.rowKept, hpaired.replayable,
    pairFrom_of_paired hpaired _, ?_⟩
  intro systemPrompt compaction images
  obtain ⟨blocks, rfl, hblocks⟩ := hpaired.blocks
  refine ⟨fun hconvertible => ?_, fun prompt plan hprompt hsystem => ?_⟩
  · have hrowsConvertible : ∀ m ∈ blocks.flatMap blockRows, Convertible images m := by
      intro m hm
      obtain ⟨old, hold, hnew⟩ := exists_of_forall₂ hrewritten hm
      exact hnew.convertible (hconvertible old hold)
    obtain ⟨messages, hmessages⟩ := mapM_elelemMessage_of_convertible hrowsConvertible
    obtain ⟨units, -, hbuild⟩ := buildReconstructionPlan_blocks hblocks
      (fun m hm => (hrowsConvertible m hm).role)
      (planLeadCount systemPrompt ⟨compaction, history⟩) compaction.isSome
    refine ⟨(leadPrompt systemPrompt ⟨compaction, history⟩).withHistory messages,
      ⟨planLeadCount systemPrompt ⟨compaction, history⟩, compaction.isSome, units⟩,
      bind_eq_ok.mpr ⟨_, hrows, bind_eq_ok.mpr ⟨messages, hmessages, ?_⟩⟩⟩
    exact bind_eq_ok.mpr ⟨_, hbuild, rfl⟩
  · rw [promptFromHistory, bind_eq_ok] at hprompt
    obtain ⟨rows', hrows', hprompt⟩ := hprompt
    cases hrows.symm.trans hrows'
    obtain ⟨messages, hmessages, hprompt⟩ := bind_eq_ok.mp hprompt
    obtain ⟨plan', hplan, hprompt⟩ := bind_eq_ok.mp hprompt
    cases hprompt
    have hconverted := mapM_elelemMessage_ok hmessages
    have hroles : ∀ m ∈ blocks.flatMap blockRows, ∃ role, elelemRole m.role = .ok role := by
      intro m hm
      obtain ⟨converted, -, h⟩ := exists_of_forall₂ hconverted.flip hm
      exact ⟨_, h.1⟩
    obtain ⟨units, hholds, hbuild⟩ := buildReconstructionPlan_blocks hblocks hroles
      (planLeadCount systemPrompt ⟨compaction, history⟩) compaction.isSome
    cases hbuild.symm.trans hplan
    obtain ⟨stamped, hstamped, hfits⟩ :=
      withHistory_messages hconverted (leadPrompt systemPrompt ⟨compaction, history⟩)
    obtain ⟨hlength, hdrop⟩ := assembled_drop systemPrompt _ stamped _ hsystem hstamped
    refine ⟨?_, blocks, rfl, hholds, fun b hb => ⟨(hblocks b hb).reply, (hblocks b hb).alone⟩⟩
    rw [ReconstructionPlan.verify_ok_iff]
    refine ⟨fun hsummary => ?_, .inr hlength, ?_⟩
    · show 0 < (if systemPrompt ≠ "" then 1 else 0) + (if compaction.isSome = true then 1 else 0)
      rw [if_pos hsummary]
      exact Nat.succ_pos _
    · have hfits := fits_of_holds hholds hfits []
      rw [append_nil, ← hdrop] at hfits
      exact hfits

/-- A row of a turn, with the calls it makes or the call it answers. -/
def turnRow (sequence : Nat) (role : MessageRole) (content : String) (calls : List ToolCall)
    (toolCallID : String) : Message :=
  ⟨sequence, 1, 2, sequence, role, content, "", "", some calls, toolCallID, none, false, true,
    some []⟩

/-- A turn that was stopped: one call is answered twice, one after another reply, one never. -/
def stoppedTurn : List Message :=
  [turnRow 1 .user "fix it" [] "",
    turnRow 2 .assistant "" [⟨"a", "readFile", ""⟩, ⟨"b", "runCommand", ""⟩] "",
    turnRow 3 .tool "contents" [] "a",
    turnRow 4 .tool "contents" [] "a",
    turnRow 5 .assistant "" [⟨"c", "editFile", ""⟩] "",
    turnRow 6 .tool "exit status 1" [] "b"]

theorem promptFromHistory_replayable_stopped :
    DistinctCalls stoppedTurn ∧
    ∃ rows, pairToolResults stoppedTurn = .ok rows ∧ Replayable rows ∧
      rows.map Message.role = [.user, .assistant, .tool, .system, .assistant, .system] ∧
      ∃ prompt plan, promptFromHistory "You fix code." ⟨none, stoppedTurn⟩ (fun _ => none) =
          .ok (prompt, plan) ∧
        plan.verify prompt.assembled = .ok () := by
  have hcalls : DistinctCalls stoppedTurn := by
    intro m hm _
    simp only [stoppedTurn, mem_cons, not_mem_nil, or_false] at hm
    rcases hm with rfl | rfl | rfl | rfl | rfl | rfl
    all_goals exact ⟨_, rfl, by decide⟩
  obtain ⟨rows, hrows, -, hreplayable, -, hprompt⟩ :=
    promptFromHistory_replayable stoppedTurn hcalls
  obtain ⟨hexists, hverify⟩ := hprompt "You fix code." none fun _ => none
  obtain ⟨prompt, plan, hplan⟩ := hexists fun m hm => by
    simp only [stoppedTurn, mem_cons, not_mem_nil, or_false] at hm
    rcases hm with rfl | rfl | rfl | rfl | rfl | rfl
    all_goals exact ⟨⟨_, rfl⟩, ⟨_, rfl⟩, [], rfl, nofun⟩
  refine ⟨hcalls, rows, hrows, hreplayable, ?_, prompt, plan, hplan, ?_⟩
  · have : pairToolResults stoppedTurn = .ok rows := hrows
    cases this
    decide
  · exact (hverify prompt plan hplan (promptFromHistory_systemMessage hplan (by decide +kernel))).1

end Peen
