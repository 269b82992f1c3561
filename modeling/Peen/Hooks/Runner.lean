import Peen.Base

/-!
# The hook runner

`Runner.Run` goes through the hooks of an event in order and through the actions of each that applies.
-/

namespace Peen.Hooks

/-- What an error of the runner is; `outside` is one that something around the runner returned, with
whether `errors.Is` matches it with `ErrDenied`. -/
inductive ErrorKind where
  | denial (reason : String)
  | denied
  | eventUnavailable
  | invalidContextTokens
  | invalidHook
  | invalidDelivery
  | invalidType
  | reservedType
  | invalidData
  | eventTooLarge
  | outside (denied : Bool)

/-- An error: what it is, and the text it was first wrapped with. -/
structure HookError where
  kind : ErrorKind
  message : String

def HookError.isDenied (e : HookError) : Bool :=
  match e.kind with
  | .denial _ | .denied => true
  | .outside denied => denied
  | _ => false

/-! ## Hooks and invocations -/

inductive HookActionType where
  | command
  | inject
  | emitEvent
  | deny
  | other (name : String)

def HookActionType.text : HookActionType → String
  | .command => "command"
  | .inject => "inject"
  | .emitEvent => "emitEvent"
  | .deny => "deny"
  | .other name => name

/-- `HookFailureMode`; a mode that is neither set nor known is `unset`. -/
inductive HookFailureMode where
  | deny
  | proceed
  | unset

section
variable (μ : Type)

/-- `HookAction`. Its data is what `json.Marshal` makes of it. -/
structure HookAction where
  name : String
  type : HookActionType
  when_ : μ
  command : String
  args : List String
  environment : List (String × String)
  workingDir : String
  timeout : String
  message : String
  eventType : String
  summary : String
  data : Except HookError Bytes
  delivery : String
  reason : String
  onFailure : HookFailureMode

structure Hook where
  name : String
  event : String
  match_ : μ
  actions : List (HookAction μ)
  source : String

end

structure Invocation where
  event : String
  sessionID : UUID
  requestID : UUID
  turnID : UUID
  agentRunID : Option UUID
  tool : String
  callID : String
  workspace : String
  paths : List String
  input : Bytes
  result : Bytes
  error : String
  stateDirectory : String
  contextTokens : Int
  hasContextTokenEstimate : Bool

/-- An event as it is handed to the publisher. -/
structure Notice where
  sessionID : UUID
  type : String
  source : String
  summary : String
  data : Bytes
  delivery : String

structure EmittedEvent where
  type : String
  summary : String
  data : Bytes
  delivery : String

structure CommandDecision where
  decision : String
  reason : String
  message : String
  events : List EmittedEvent

structure Outcome where
  injections : List String
  events : List EmittedEvent

structure CommandInput where
  command : String
  args : List String
  environment : List (String × String)
  workingDir : String
  stdin : Bytes
  maxOutput : Nat
  timeout : Int

structure Limits where
  maxSummaryBytes : Nat
  maxDataBytes : Nat

/-- What a part of the runner does to the state of what surrounds it. -/
abbrev Act (σ : Type) := ExceptT HookError (StateM σ)

/-- What the runner takes from the standard library: `strings.TrimSpace`, `bytes.TrimSpace`,
`time.ParseDuration`, `json.Valid`, a decoder that disallows unknown fields, whether `json.Unmarshal`
reads an object, what `json.Marshal` gives for an invocation and for the data of a failure event, and
`filepath.Join`, `filepath.IsAbs` and `filepath.Clean`. -/
structure Library where
  trimSpace : String → String
  trimBytes : Bytes → Bytes
  parseDuration : String → Option Int
  jsonValid : Bytes → Bool
  decodeStrict : Bytes → Except HookError CommandDecision
  isObject : Bytes → Bool
  marshalInvocation : Invocation → Except HookError Bytes
  marshalFailure : List (String × String) → Except HookError Bytes
  joinPath : String → String → String
  isAbs : String → Bool
  cleanPath : String → String

/-- A runner with what surrounds it: the publisher, the commands, the callback and which actions
apply are open. -/
structure Runner (σ μ : Type) where
  hooks : List (Hook μ)
  workspace : String
  commandTimeout : Int
  maxCommandOutput : Nat
  stateRoot : String
  library : Library
  limits : Limits
  publisher : Option (Notice → Act σ Unit)
  runCommand : CommandInput → Act σ Bytes
  makeDirectory : String → Act σ Unit
  contextTokenCounter : Option (Invocation → Act σ Int)
  callback : Option (Invocation → Act σ Outcome)
  applies : μ → Invocation → Bool

/-! ## Events -/

def isLowercaseLetter (c : Char) : Bool := 'a' ≤ c && c ≤ 'z'

def isDigit (c : Char) : Bool := '0' ≤ c && c ≤ '9'

def splitDots : List Char → List Char → List (List Char)
  | segment, [] => [segment]
  | segment, c :: rest =>
    if c = '.' then segment :: splitDots [] rest else splitDots (segment ++ [c]) rest

def validateTypeSegment : List Char → Except HookError Unit
  | [] => .error ⟨.invalidType, "empty segment"⟩
  | c :: rest =>
    if isLowercaseLetter c && rest.all (fun c => isLowercaseLetter c || isDigit c) then .ok ()
    else .error ⟨.invalidType, "segment character"⟩

def maxTypeLength : Nat := 128

def maxTypeSegments : Nat := 8

def validateType (type : String) : Except HookError Unit :=
  if type = "" ∨ type.utf8ByteSize > maxTypeLength then .error ⟨.invalidType, "type length"⟩
  else
    let segments := splitDots [] type.toList
    if segments.length > maxTypeSegments then .error ⟨.invalidType, "too many segments"⟩
    else segments.forM validateTypeSegment

def reservedPrefixes : List String := ["job.", "agent.", "turn."]

def isReserved (type : String) : Bool :=
  reservedPrefixes.any fun reserved => reserved.toList.isPrefixOf type.toList

def validateExternalType (type : String) : Except HookError Unit := do
  let _ ← validateType type
  if isReserved type then .error ⟨.reservedType, type⟩ else .ok ()

def validateDelivery (delivery : String) : Except HookError String :=
  if delivery = "" then .ok "queue"
  else if delivery = "queue" ∨ delivery = "wake" then .ok delivery
  else .error ⟨.invalidDelivery, delivery⟩

def validateData (lib : Library) (data : Bytes) : Except HookError Unit :=
  if (lib.trimBytes data).isEmpty then .ok ()
  else if lib.isObject data then .ok ()
  else .error ⟨.invalidData, "event data must be a JSON object"⟩

def Limits.validate (l : Limits) (summary : String) (data : Bytes) : Except HookError Unit :=
  if summary.utf8ByteSize > l.maxSummaryBytes then .error ⟨.eventTooLarge, "event summary"⟩
  else if data.length > l.maxDataBytes then .error ⟨.eventTooLarge, "event data"⟩
  else .ok ()

def jsonNullLiteral : Bytes := [110, 117, 108, 108]

def hookFailureEventSource : String := "hooks"

theorem Act.bind_apply {σ α β : Type} (x : Act σ α) (f : α → Act σ β) (s : σ) :
    (x >>= f) s = match x s with
      | (.ok a, s') => f a s'
      | (.error e, s') => (.error e, s') := by
  show (match x s with | (a, s') => ExceptT.bindCont f a s') = _
  cases x s with
  | mk a s' => cases a <;> rfl

namespace Runner

variable {σ μ : Type}

/-- The checks of `Runner.publishEvent`, and the notice that passes them. -/
def checkEvent (r : Runner σ μ) (event : EmittedEvent) (invocation : Invocation) :
    Except HookError Notice := do
  let delivery ← validateDelivery event.delivery
  let _ ← validateExternalType event.type
  let data := if r.library.trimBytes event.data = jsonNullLiteral then [] else event.data
  let _ ← validateData r.library data
  let _ ← r.limits.validate event.summary data
  .ok ⟨invocation.sessionID, event.type, hookFailureEventSource, event.summary, data, delivery⟩

def publishEvent (r : Runner σ μ) (event : EmittedEvent) (invocation : Invocation) : Act σ Unit :=
  match r.publisher with
  | none => throw ⟨.eventUnavailable, "hook event publisher is unavailable"⟩
  | some publish =>
    if invocation.sessionID = UUID.nil then
      throw ⟨.eventUnavailable, "hook event publisher is unavailable"⟩
    else do
      let notice ← liftExcept (r.checkEvent event invocation)
      publish notice
where
  /-- A check that touches nothing. -/
  liftExcept {α : Type} (x : Except HookError α) : Act σ α := fun s => (x, s)

section
variable (event : String) (lib : Library) (r : Runner σ μ) (hook : Hook μ) (action : HookAction μ)
  (invocation : Invocation) (s : σ)

def publishCommandEvents (r : Runner σ μ) (events : List EmittedEvent) (invocation : Invocation) :
    Act σ Unit :=
  match events with
  | [] => pure ()
  | event :: events => do
    r.publishEvent event invocation
    r.publishCommandEvents events invocation

def publishActionEvent : Act σ Unit :=
  match action.data with
  | .error e => throw e
  | .ok data => r.publishEvent ⟨action.eventType, action.summary, data, action.delivery⟩ invocation

/-! ## Commands -/

def sessionStateDirectory (sessionID : UUID) : Act σ String :=
  if r.stateRoot = "." ∨ r.library.trimSpace r.stateRoot = "" then
    throw ⟨.denied, "hook state root is required"⟩
  else do
    r.makeDirectory r.stateRoot
    let directory := r.library.joinPath r.stateRoot (toString sessionID)
    r.makeDirectory directory
    pure directory

/-- The estimate of `Runner.commandInvocation`. -/
def estimateTokens : Act σ Invocation :=
  match r.contextTokenCounter with
  | none => pure invocation
  | some count =>
    if invocation.hasContextTokenEstimate then pure invocation
    else do
      let contextTokens ← count invocation
      if contextTokens < 0 then
        throw ⟨.invalidContextTokens, "hook context token estimate is negative"⟩
      else pure { invocation with contextTokens := contextTokens }

/-- The state directory of `Runner.commandInvocation`. -/
def withStateDirectory : Act σ Invocation :=
  if invocation.sessionID = UUID.nil then pure invocation
  else do
    let stateDirectory ← r.sessionStateDirectory invocation.sessionID
    pure { invocation with stateDirectory := stateDirectory }

def commandInvocation : Act σ (Invocation × Bytes) := do
  let invocation ← r.estimateTokens invocation
  let invocation ← r.withStateDirectory invocation
  match r.library.marshalInvocation invocation with
  | .error e => throw e
  | .ok payload => pure (invocation, payload)

/-- `HookAction.CommandTimeout`. -/
def actionTimeout : Act σ Int :=
  if action.timeout = "" then pure 0
  else
    match r.library.parseDuration action.timeout with
    | none => throw ⟨.invalidHook, "command timeout must be a Go duration such as 30s or 1m30s"⟩
    | some timeout =>
      if timeout ≤ 0 then throw ⟨.invalidHook, "command timeout must be positive"⟩
      else pure timeout

def actionWorkingDirectory (requested : String) : String :=
  if r.library.trimSpace requested = "" then r.workspace
  else if r.library.isAbs requested then r.library.cleanPath requested
  else r.library.joinPath r.workspace requested

def decodeCommandDecision (output : Bytes) : Except HookError (Option CommandDecision) :=
  if (lib.trimBytes output).isEmpty then .ok none
  else if !lib.jsonValid output then .ok none
  else
    match lib.decodeStrict output with
    | .error e => .error e
    | .ok decision =>
      if decision.decision ≠ "" ∧ decision.decision ≠ "allow" ∧ decision.decision ≠ "deny" then
        .error ⟨.denied, "hook command returned an invalid decision"⟩
      else .ok (some decision)

/-- `Runner.runCommandAction` up to the decision: the command runs, and its output is decoded. -/
def commandDecision : Act σ (Option CommandDecision × Invocation) := do
  let (invocation, payload) ← r.commandInvocation invocation
  let timeout ← r.actionTimeout action
  let output ← r.runCommand ⟨action.command, action.args, action.environment,
    r.actionWorkingDirectory action.workingDir, payload, r.maxCommandOutput,
    if timeout = 0 then r.commandTimeout else timeout⟩
  match decodeCommandDecision r.library output with
  | .error e => throw e
  | .ok decision => pure (decision, invocation)

def denialReason (decision : CommandDecision) : String :=
  let reason := lib.trimSpace decision.reason
  if reason = "" then "hook command denied operation" else reason

def nonEmptyString (value : String) : List String :=
  if lib.trimSpace value = "" then [] else [value]

/-- `Runner.runCommandAction` after the decision was read. -/
def applyDecision : Option CommandDecision → Act σ (List String)
  | none => pure []
  | some decision => do
    r.publishCommandEvents decision.events invocation
    if decision.decision = "deny" then
      throw ⟨.denial (denialReason r.library decision), "apply hook command decision"⟩
    else pure (nonEmptyString r.library decision.message)

def runCommandAction : Act σ (List String) := do
  let (decision, invocation) ← r.commandDecision action invocation
  r.applyDecision invocation decision

/-- `Runner.runAction`; the result is what the action injects. -/
def runAction : Act σ (List String) :=
  match action.type with
  | .inject => pure [action.message]
  | .deny => throw ⟨.denial action.reason, "run deny action"⟩
  | .emitEvent => do
    r.publishActionEvent action invocation
    pure []
  | .command => r.runCommandAction action invocation
  | .other _ => throw ⟨.denied, "unsupported resolved hook action"⟩

/-! ## Runs -/

def firstByte (c : Char) : Nat :=
  let n := c.toNat
  if n < 0x80 then n
  else if n < 0x800 then 0xC0 + n / 0x40
  else if n < 0x10000 then 0xE0 + n / 0x1000
  else 0xF0 + n / 0x40000

/-- `unicode.IsUpper` of a byte taken for a character. -/
def isUpperByte (b : Nat) : Bool :=
  (65 ≤ b && b ≤ 90) || (0xC0 ≤ b && b ≤ 0xDE && b ≠ 0xD7)

def isPreEvent : Bool :=
  event == "sessionStart" || event == "turnStart" ||
    match event.toList with
    | 'p' :: 'r' :: 'e' :: c :: _ => isUpperByte (firstByte c)
    | _ => false

/-- Whether a failure is recorded and passed over. -/
def continuesOnFailure : Bool :=
  match action.onFailure with
  | .proceed => true
  | .deny => false
  | .unset => !isPreEvent event

def resolvedHookName : String :=
  if r.library.trimSpace hook.name ≠ "" then hook.name else hook.event

/-- `Runner.recordActionFailure`: what it fails at is only logged. -/
def recordActionFailure : σ :=
  match r.publisher with
  | none => s
  | some publish =>
    if invocation.sessionID = UUID.nil then s
    else
      match r.library.marshalFailure [("event", invocation.event),
        ("hookName", r.resolvedHookName hook), ("action", action.name),
        ("actionType", HookActionType.text action.type), ("source", hook.source)] with
      | .error _ => s
      | .ok data =>
        (publish ⟨invocation.sessionID, "hook.action.failed", hookFailureEventSource,
          "Hook action failed after the operation.", data, "queue"⟩ s).2

/-- Where a run ended. -/
structure Result (σ : Type) where
  state : σ
  injections : List String
  err : Option HookError

/-- The loop over a hook's actions. -/
def runHookActions (r : Runner σ μ) (hook : Hook μ) (invocation : Invocation) :
    List (HookAction μ) → σ → List String → Result σ
  | [], s, injections => ⟨s, injections, none⟩
  | action :: actions, s, injections =>
    if !r.applies action.when_ invocation then
      r.runHookActions hook invocation actions s injections
    else
      match r.runAction action invocation s with
      | (.error e, s) =>
        if e.isDenied then ⟨s, injections, some e⟩
        else if continuesOnFailure invocation.event action then
          r.runHookActions hook invocation actions
            (r.recordActionFailure hook action invocation s) injections
        else ⟨s, injections, some e⟩
      | (.ok injected, s) => r.runHookActions hook invocation actions s (injections ++ injected)

/-- The loop of `Runner.Run`. -/
def runHooks (r : Runner σ μ) (invocation : Invocation) : List (Hook μ) → σ → List String → Result σ
  | [], s, injections => ⟨s, injections, none⟩
  | hook :: hooks, s, injections =>
    if hook.event ≠ invocation.event ∨ r.applies hook.match_ invocation = false then
      r.runHooks invocation hooks s injections
    else
      let result := r.runHookActions hook invocation hook.actions s injections
      match result.err with
      | some _ => result
      | none => r.runHooks invocation hooks result.state result.injections

/-- The Go callback of `Runner.Run`: what it injects, after its events were published. -/
def runCallback (result : Result σ) : Result σ :=
  match r.callback with
  | none => result
  | some callback =>
    match callback invocation result.state with
    | (.error e, s) => ⟨s, result.injections, some e⟩
    | (.ok outcome, s) =>
      match r.publishCommandEvents outcome.events invocation s with
      | (.error e, s) => ⟨s, result.injections ++ outcome.injections, some e⟩
      | (.ok _, s) => ⟨s, result.injections ++ outcome.injections, none⟩

/-- The invocation `Run` goes by: it is about the runner's workspace. -/
def located : Invocation :=
  { invocation with workspace := r.workspace }

def run : Result σ :=
  let invocation := r.located invocation
  let result := r.runHooks invocation r.hooks s []
  match result.err with
  | some _ => result
  | none => r.runCallback invocation result

end

end Runner

end Peen.Hooks
