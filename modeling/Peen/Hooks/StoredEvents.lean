import Peen.Hooks.Deny

/-!
# Hook events and the notice store

The publisher behind a runner is the runtime's: the bus prepares a notice, the store saves it, and
it is handed on.
-/

namespace Peen.Hooks

/-- The sessions, and the rows of `session_notices` in their order. -/
structure NoticeStore where
  sessions : List UUID
  notices : List Notice := []
  named : UUID.nil ∉ sessions

def takeWithin : Nat → List Char → List Char
  | _, [] => []
  | n, c :: rest => if c.utf8Size ≤ n then c :: takeWithin (n - c.utf8Size) rest else []

def truncateToRuneBoundary (text : String) (maxBytes : Nat) : String :=
  if text.utf8ByteSize ≤ maxBytes then text else String.ofList (takeWithin maxBytes text.toList)

/-- `Bus.PrepareContext`, with the bounds of `applyDefaults`. -/
def prepareContext (lib : Library) (limits : Limits) (notice : Notice) :
    Except HookError Notice := do
  if notice.sessionID = UUID.nil then .error ⟨.outside false, "event session is required"⟩
  let _ ← validateType notice.type
  let delivery ← validateDelivery notice.delivery
  let summary := truncateToRuneBoundary notice.summary limits.maxSummaryBytes
  let data := if notice.data.length ≤ limits.maxDataBytes then notice.data else []
  let _ ← validateData lib data
  .ok { notice with delivery, summary, data }

/-- The store's check, which refuses an empty summary. -/
def validateSessionNoticeInput (lib : Library) (input : Notice) : Except HookError Unit :=
  if input.sessionID = UUID.nil ∨ isBlank input.type ∨ isBlank input.source ∨ isBlank input.summary
  then .error ⟨.outside false, "session notice"⟩
  else if input.delivery ≠ "queue" ∧ input.delivery ≠ "wake" then
    .error ⟨.outside false, "session notice delivery"⟩
  else validateData lib input.data

def dataJSON (data : Bytes) : Bytes := if data = [] then [123, 125] else data

/-- `jsonValid` is the check of the column `data_json`. -/
def createSessionNotice (lib : Library) (jsonValid : Bytes → Bool) (input : Notice)
    (s : NoticeStore) : Except HookError NoticeStore := do
  let _ ← validateSessionNoticeInput lib input
  if input.sessionID ∉ s.sessions then .error ⟨.outside false, "find notice session"⟩
  else if jsonValid (dataJSON input.data) then
    .ok { s with notices := s.notices ++ [{ input with data := dataJSON input.data }] }
  else .error ⟨.outside false, "create session notice"⟩

/-- `persistAndPublishNotice`. `Publish` prepares the notice once more; a wake never fails it. -/
def persistAndPublishNotice (lib : Library) (limits : Limits) (jsonValid : Bytes → Bool)
    (notice : Notice) : Act NoticeStore Unit := fun s =>
  if notice.sessionID ∉ s.sessions then (.error ⟨.outside false, "resolve event session"⟩, s)
  else
    match prepareContext lib limits notice with
    | .error e => (.error e, s)
    | .ok prepared =>
      match createSessionNotice lib jsonValid prepared s with
      | .error e => (.error e, s)
      | .ok s' => ((prepareContext lib limits prepared).map fun _ => (), s')

theorem splitDots_head (segment chars : List Char) :
    ∃ more rest, splitDots segment chars = (segment ++ more) :: rest := by
  induction chars generalizing segment with
  | nil => exact ⟨[], [], by rw [splitDots, List.append_nil]⟩
  | cons c chars ih =>
    rw [splitDots]
    split
    · exact ⟨[], _, by rw [List.append_nil]⟩
    · obtain ⟨more, rest, h⟩ := ih (segment ++ [c])
      exact ⟨c :: more, rest, by rw [h, List.append_assoc, List.singleton_append]⟩

theorem not_isBlank_of_validateType (h : validateType type = .ok ()) : isBlank type = false := by
  obtain ⟨hlen, h⟩ := of_check h
  obtain ⟨-, h⟩ := of_check h
  rw [isBlank]
  cases hc : type.toList with
  | nil => exact absurd (String.toList_eq_nil_iff.1 hc) fun he => hlen (.inl he)
  | cons c chars =>
    rw [hc] at h
    have hletter : isLowercaseLetter c := by
      by_cases hdot : c = '.'
      · simp [splitDots, hdot, validateTypeSegment] at h
        cases h
      · obtain ⟨more, rest, heq⟩ := splitDots_head [c] chars
        rw [splitDots, if_neg hdot, List.nil_append, heq] at h
        obtain ⟨_, hseg, -⟩ := of_bind h
        exact ((Bool.and_eq_true _ _).mp (of_require hseg).1).1
    have hspace : isSpace c = false := by
      have hle : 97 ≤ c.toNat ∧ c.toNat ≤ 122 := by
        simpa [isLowercaseLetter, Char.le_def, UInt32.le_iff_toNat_le] using hletter
      simp [isSpace]
      omega
    rw [List.all_cons, hspace, Bool.false_and]

theorem validateDelivery_ok (h : validateDelivery delivery = .ok valid) :
    valid = "queue" ∨ valid = "wake" := by
  unfold validateDelivery at h
  split at h
  · cases h
    exact .inl rfl
  · obtain ⟨hvalid, h⟩ := of_require h
    cases h
    exact hvalid

section
variable {μ : Type} {r : Runner NoticeStore μ} {event : EmittedEvent} {invocation : Invocation}
  {notice : Notice}

/-- The bus leaves an event that the runner accepted as it is, and of what the store asks for only
the summary is not certain. -/
theorem Runner.checked_event (h : r.checkEvent event invocation = .ok notice)
    (hid : invocation.sessionID ≠ UUID.nil) : notice.sessionID = invocation.sessionID ∧
    prepareContext r.library r.limits notice = .ok notice ∧
    (validateSessionNoticeInput r.library notice =
      if isBlank event.summary then .error ⟨.outside false, "session notice"⟩ else .ok ()) := by
  obtain ⟨delivery, hdelivery, h⟩ := of_bind h
  obtain ⟨_, htype, h⟩ := of_bind h
  obtain ⟨_, hdata, h⟩ := of_bind h
  obtain ⟨_, hsize, h⟩ := of_bind h
  obtain ⟨_, htype, _⟩ := of_bind htype
  obtain ⟨hsummary, hsize⟩ := of_check hsize
  obtain ⟨hlength, -⟩ := of_check hsize
  have hvalid := validateDelivery_ok hdelivery
  have hsame : validateDelivery delivery = .ok delivery := by rcases hvalid with rfl | rfl <;> rfl
  obtain rfl := Except.ok.inj h
  refine ⟨rfl, ?_, ?_⟩
  · simp [prepareContext, hid, htype, hsame, truncateToRuneBoundary, Nat.not_lt.1 hsummary,
      Nat.not_lt.1 hlength, hdata, bind, Except.bind]
  · have hsource : isBlank hookFailureEventSource = false := by decide
    simp only [validateSessionNoticeInput, hid, not_isBlank_of_validateType htype, hsource, hdata]
    split <;> split <;> simp_all

/-- **A hook event that is accepted is stored** for an existing session exactly if its summary is
not blank and its data passes the check of the column. -/
theorem hook_event_stored_iff (jsonValid : Bytes → Bool) (s : NoticeStore)
    (hpublisher : r.publisher = some (persistAndPublishNotice r.library r.limits jsonValid))
    (hsession : invocation.sessionID ∈ s.sessions)
    (haccepted : r.checkEvent event invocation = .ok notice) :
    r.publishEvent event invocation s = (.ok (),
      { s with notices := s.notices ++ [{ notice with data := dataJSON notice.data }] }) ↔
    isBlank event.summary = false ∧ jsonValid (dataJSON notice.data) = true := by
  have hid : invocation.sessionID ≠ UUID.nil := fun h => s.named (h ▸ hsession)
  obtain ⟨howner, hprepared, hinput⟩ := r.checked_event haccepted hid
  rw [← howner] at hsession
  have hpublish : r.publishEvent event invocation s =
      persistAndPublishNotice r.library r.limits jsonValid notice s := by
    unfold Runner.publishEvent
    rw [hpublisher]
    dsimp only
    rw [if_neg hid, Act.bind_apply, Runner.publishEvent.liftExcept, haccepted]
  rw [hpublish, persistAndPublishNotice, if_neg (not_not.2 hsession), hprepared]
  dsimp only
  rw [createSessionNotice, hinput, if_neg (not_not.2 hsession)]
  by_cases hblank : isBlank event.summary = true
  · rw [if_pos hblank]
    exact iff_of_false (fun h => nomatch congrArg Prod.fst h) (by simp [hblank])
  rw [if_neg hblank]
  by_cases hvalid : jsonValid (dataJSON notice.data) = true
  · rw [if_pos hvalid]
    exact iff_of_true (by simp only [bind, Except.bind, hprepared]; rfl) ⟨by simp [hblank], hvalid⟩
  · rw [if_neg hvalid]
    exact iff_of_false (fun h => nomatch congrArg Prod.fst h) (fun h => hvalid h.2)

end

def storingRunner : Runner NoticeStore Unit :=
  let limits := ⟨4096, 65536⟩
  let publish := persistAndPublishNotice Runner.denyLibrary limits fun _ => true
  ⟨[], "/w", 30, 65536, "/state", Runner.denyLibrary, limits, some publish, fun _ => pure [],
    fun _ => pure (), none, none, fun _ _ => true⟩

def oneSessionStore : NoticeStore := ⟨[7], [], by decide⟩

def goChanged (summary : String) : EmittedEvent := ⟨"go.changed", summary, [], ""⟩

theorem hook_event_stored_summary :
    isBlank "A Go file changed." = false ∧
    storingRunner.publishEvent (goChanged "A Go file changed.") Runner.toolUse oneSessionStore =
      (.ok (), ⟨[7], [⟨7, "go.changed", "hooks", "A Go file changed.", [123, 125], "queue"⟩],
        by decide⟩) :=
  ⟨by decide, (@hook_event_stored_iff _ storingRunner (goChanged "A Go file changed.")
    Runner.toolUse _ (fun _ => true) oneSessionStore rfl (by decide) rfl).2 ⟨by decide, rfl⟩⟩

/-- An event without a summary is accepted by the runner and refused by the store. -/
theorem empty_summary_refused :
    (storingRunner.checkEvent (goChanged "") Runner.toolUse).isOk = true ∧
    storingRunner.publishEvent (goChanged "") Runner.toolUse oneSessionStore =
      (.error ⟨.outside false, "session notice"⟩, oneSessionStore) := ⟨rfl, rfl⟩

end Peen.Hooks
