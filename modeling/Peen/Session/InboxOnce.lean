import Peen.Session.StopFence

/-!
# Messages of executions enter a conversation once

A message is accepted once, by its request, and its row gets the next sequence of its execution.
-/

namespace Peen.Sessions

open List Executions
open Relation (ReflTransGen)
open Lts Executions

/-! ## The rows of an inbox -/

/-- The keys of the table, and the order of the rows of an execution. -/
structure Keyed (inbox : List ExecutionInboxMessage) : Prop where
  ids : (inbox.map (·.id)).Nodup
  requests : (inbox.map (·.requestID)).Nodup
  ordered : inbox.Pairwise fun r r' => r.executionID = r'.executionID → r.sequence < r'.sequence

/-- What a row keeps: all but its state and what it is bound to. -/
def ExecutionInboxMessage.content (row : ExecutionInboxMessage) : ExecutionInboxMessage :=
  { row with state := .queued, deliveredActivityID := none, forwardedExecutionID := none }

section Rows
variable {row row' : ExecutionInboxMessage}

theorem ExecutionInboxMessage.keys_of_content (h : row'.content = row.content) :
    row'.id = row.id ∧ row'.requestID = row.requestID ∧ row'.executionID = row.executionID ∧
      row'.sequence = row.sequence := by
  have hid : row'.content.id = row.content.id := by rw [h]
  have hreq : row'.content.requestID = row.content.requestID := by rw [h]
  have hexec : row'.content.executionID = row.content.executionID := by rw [h]
  have hseq : row'.content.sequence = row.content.sequence := by rw [h]
  exact ⟨hid, hreq, hexec, hseq⟩

theorem Keyed.map (h : Keyed inbox) (hf : ∀ row, (f row).content = row.content) :
    Keyed (inbox.map f) := by
  have hkeys := fun row => ExecutionInboxMessage.keys_of_content (hf row)
  refine ⟨?_, ?_, ?_⟩
  · rw [map_map]
    exact (map_congr_left fun row _ => (hkeys row).1) ▸ h.ids
  · rw [map_map]
    exact (map_congr_left fun row _ => (hkeys row).2.1) ▸ h.requests
  · refine pairwise_map.2 (h.ordered.imp fun {r r'} hlt => ?_)
    rw [(hkeys r).2.2.1, (hkeys r').2.2.1, (hkeys r).2.2.2, (hkeys r').2.2.2]
    exact hlt

theorem Keyed.eq_of_id (h : Keyed inbox) (hrow : row ∈ inbox) (hrow' : row' ∈ inbox)
    (hid : row.id = row'.id) : row = row' :=
  inj_on_of_nodup_map h.ids hrow hrow' hid

theorem Keyed.eq_of_request (h : Keyed inbox) (hrow : row ∈ inbox) (hrow' : row' ∈ inbox)
    (hreq : row.requestID = row'.requestID) : row = row' :=
  inj_on_of_nodup_map h.requests hrow hrow' hreq

theorem Keyed.inboxRequest?_eq {s : Tables} (h : Keyed s.inbox) (hrow : row ∈ s.inbox) :
    s.inboxRequest? row.requestID = some row := by
  cases hfd : s.inboxRequest? row.requestID with
  | none => exact absurd (beq_iff_eq.2 rfl) (find?_eq_none.1 hfd row hrow)
  | some found =>
    obtain ⟨hmem, hreq⟩ := Tables.mem_of_inboxRequest? hfd
    rw [h.eq_of_request hmem hrow hreq]

end Rows

/-! ## Delivery -/

def Tables.undelivered (s : Tables) (requestIDs : List UUID) : List ExecutionInboxMessage :=
  requestIDs.filterMap fun id => (s.inboxRequest? id).filter (·.state != .delivered)

def markDelivered (requestIDs : List UUID) (activityID : UUID) (row : ExecutionInboxMessage) :
    ExecutionInboxMessage :=
  if row.requestID ∈ requestIDs ∧ row.state ≠ .delivered then delivered activityID row else row

section Delivery
variable {s s' : Tables} {requestIDs : List UUID} {row : ExecutionInboxMessage}

section
variable (inbox : List ExecutionInboxMessage) (requestID : UUID) (requestIDs : List UUID)
  (activityID : UUID) (row : ExecutionInboxMessage)

@[simp] theorem content_delivered : (delivered activityID row).content = row.content := rfl

@[simp] theorem content_markDelivered :
    (markDelivered requestIDs activityID row).content = row.content := by
  unfold markDelivered
  split
  · exact content_delivered activityID row
  · rfl

theorem requestID_markDelivered :
    (markDelivered requestIDs activityID row).requestID = row.requestID :=
  (ExecutionInboxMessage.keys_of_content (content_markDelivered requestIDs activityID row)).2.1

theorem markDelivered_cons :
    markDelivered requestIDs activityID (markDelivered [requestID] activityID row) =
    markDelivered (requestID :: requestIDs) activityID row := by
  unfold markDelivered
  by_cases hst : row.state = .delivered
  · simp [hst]
  by_cases hhead : row.requestID = requestID
  · simp [hhead, hst, delivered]
  · simp [hhead, hst]

theorem map_markDelivered_cons :
    (inbox.map (markDelivered [requestID] activityID)).map (markDelivered requestIDs activityID) =
    inbox.map (markDelivered (requestID :: requestIDs) activityID) := by
  rw [map_map]
  exact map_congr_left fun r _ => markDelivered_cons requestID requestIDs activityID r

theorem map_markDelivered_nil : inbox.map (markDelivered [] activityID) = inbox :=
  (map_congr_left fun _ _ => if_neg fun hnm => absurd hnm.1 not_mem_nil).trans (map_id _)

end

theorem Keyed.updateInbox (h : Keyed s.inbox) (hfd : s.inboxRequest? requestID = some row)
    (hst : row.state ≠ .delivered) : (s.updateInbox row.id (delivered activityID)).inbox =
      s.inbox.map (markDelivered [requestID] activityID) := by
  obtain ⟨hmem, hreq⟩ := Tables.mem_of_inboxRequest? hfd
  refine map_congr_left fun r hr => ?_
  unfold markDelivered
  by_cases hid : r.id = row.id
  · cases h.eq_of_id hr hmem hid
    rw [if_pos (beq_iff_eq.2 rfl), if_pos ⟨mem_singleton.2 hreq, hst⟩]
  · rw [if_neg fun heq => hid (beq_iff_eq.1 heq), if_neg]
    intro hnm
    have hsame : r.requestID = row.requestID := (mem_singleton.1 hnm.1).trans hreq.symm
    exact hid (congrArg _ (h.eq_of_request hr hmem hsame))

theorem Keyed.markDelivered_repeated (h : Keyed s.inbox)
    (hfd : s.inboxRequest? requestID = some row) (hst : row.state = .delivered) :
    s.inbox.map (markDelivered [requestID] activityID) = s.inbox := by
  obtain ⟨hmem, hreq⟩ := Tables.mem_of_inboxRequest? hfd
  refine (map_congr_left fun r hr => ?_).trans (map_id _)
  refine if_neg fun hnm => hnm.2 ?_
  rw [h.eq_of_request hr hmem ((mem_singleton.1 hnm.1).trans hreq.symm)]
  exact hst

theorem undelivered_markDelivered (hnew : requestID ∉ requestIDs)
    (hs' : s'.inbox = s.inbox.map (markDelivered [requestID] activityID)) :
    s'.undelivered requestIDs = s.undelivered requestIDs := by
  refine filterMap_congr fun id hid => ?_
  have hne : requestID ≠ id := fun heq => hnew (heq ▸ hid)
  have hfind : s'.inboxRequest? id = s.inboxRequest? id := by
    unfold Tables.inboxRequest?
    rw [hs', find?_map]
    have hcomp : ((fun r : ExecutionInboxMessage => r.requestID == id) ∘
        markDelivered [requestID] activityID) = fun r => r.requestID == id := by
      funext r
      exact congrArg (· == id) (requestID_markDelivered _ _ r)
    rw [hcomp]
    cases hfd : s.inbox.find? fun r => r.requestID == id with
    | none => rfl
    | some r =>
      refine congrArg some (if_neg fun hnm => hne ?_)
      exact (mem_singleton.1 hnm.1).symm.trans (beq_iff_eq.1 (find?_some hfd :))
  rw [hfind]

theorem undelivered_cons (s : Tables) (requestID : UUID) (requestIDs : List UUID) :
    s.undelivered (requestID :: requestIDs) =
      ((s.inboxRequest? requestID).filter (·.state != .delivered)).toList ++
        s.undelivered requestIDs := by
  unfold Tables.undelivered
  rw [filterMap_cons]
  cases (s.inboxRequest? requestID).filter (·.state != .delivered) <;> rfl

theorem filter_undelivered (hst : row.state ≠ .delivered) :
    (some row).filter (·.state != .delivered) = some row :=
  if_pos (bne_iff_ne.2 hst)

theorem filter_delivered (hst : row.state = .delivered) :
    (some row).filter (·.state != .delivered) = none :=
  if_neg fun h => bne_iff_ne.1 h hst

namespace Tables

/-- **A delivery gives the messages of the rows that are not delivered**, in the order in which they
are named, and marks these rows. -/
theorem deliverInboxRows_spec {messages : List MessageInput} (h : Keyed s.inbox)
    (hnd : requestIDs.Nodup)
    (hs : deliverInboxRows execution activity requestIDs s = .ok (messages, s')) :
    messages = (s.undelivered requestIDs).flatMap inboxTranscriptMessages ∧
      s' = { s with inbox := s.inbox.map (markDelivered requestIDs activity.id) } ∧
      ∀ row ∈ s.undelivered requestIDs, row.executionID = execution.id := by
  induction requestIDs generalizing s messages with
  | nil =>
    cases hs
    refine ⟨rfl, ?_, nofun⟩
    rw [map_markDelivered_nil]
  | cons requestID requestIDs ih =>
    obtain ⟨hnew, hnd⟩ := nodup_cons.1 hnd
    obtain ⟨row, hrow, hs⟩ := of_bind hs
    obtain ⟨⟨first, t⟩, ht, hs⟩ := of_bind hs
    obtain ⟨⟨rest, u⟩, hu, hs⟩ := of_bind hs
    cases hs
    have hfd := findInboxRequest_ok hrow
    obtain ⟨hof, hcas⟩ := deliverInboxRow_ok ht
    rw [undelivered_cons, hfd]
    -- The head leaves its row marked; the rest does not see it.
    have hhead : t = { s with inbox := s.inbox.map (markDelivered [requestID] activity.id) } ∧
        first = ((some row).filter (·.state != .delivered)).toList.flatMap
          inboxTranscriptMessages := by
      rcases hcas with ⟨hst, _, rfl, rfl⟩ | ⟨hst, rfl, rfl⟩
      · rw [h.markDelivered_repeated hfd hst, filter_delivered hst]
        exact ⟨rfl, rfl⟩
      · rw [filter_undelivered hst]
        refine ⟨?_, (append_nil _).symm⟩
        rw [← h.updateInbox hfd hst]
        rfl
    obtain ⟨rfl, rfl⟩ := hhead
    obtain ⟨rfl, rfl, hrows⟩ := ih (h.map fun r => content_markDelivered _ _ r) hnd hu
    have hrest : undelivered
        { s with inbox := s.inbox.map (markDelivered [requestID] activity.id) } requestIDs =
        s.undelivered requestIDs := undelivered_markDelivered hnew rfl
    rw [hrest] at hrows
    refine ⟨?_, ?_, ?_⟩
    · rw [flatMap_append, hrest]
    · rw [map_markDelivered_cons]
    · intro r hr
      rcases mem_append.1 hr with hr | hr
      · cases (Option.filter_eq_some_iff.1 (Option.mem_toList.1 hr)).1
        exact hof
      · exact hrows r hr

theorem deliverChildInboxRows_spec (h : Keyed s.inbox) (hnd : requestIDs.Nodup)
    (hs : deliverChildInboxRows run agentRunID activity execution requestIDs s = .ok s') :
    (∃ executions, s' = { s with
      inbox := s.inbox.map (markDelivered requestIDs activity.id)
      agentRunMessages := s.agentRunMessages ++
        ((s.undelivered requestIDs).flatMap inboxTranscriptMessages).map
          (agentRunMessage agentRunID)
      executions := executions }) ∧
      ∀ row ∈ s.undelivered requestIDs, row.executionID = execution.id := by
  induction requestIDs generalizing s execution with
  | nil =>
    cases hs
    refine ⟨⟨s'.executions, ?_⟩, nofun⟩
    rw [map_markDelivered_nil]
    show s' = { s' with agentRunMessages := s'.agentRunMessages ++ [] }
    rw [append_nil]
  | cons requestID requestIDs ih =>
    obtain ⟨hnew, hnd⟩ := nodup_cons.1 hnd
    obtain ⟨row, hrow, hs⟩ := of_bind hs
    obtain ⟨⟨execution', t⟩, ht, hs⟩ := of_bind hs
    have hfd := findInboxRequest_ok hrow
    obtain ⟨hof, hcas⟩ := deliverChildInboxRow_ok ht
    rw [undelivered_cons, hfd]
    have hhead : execution'.id = execution.id ∧ ∃ executions, t = { s with
        inbox := s.inbox.map (markDelivered [requestID] activity.id)
        agentRunMessages := s.agentRunMessages ++
          (((some row).filter (·.state != .delivered)).toList.flatMap
            inboxTranscriptMessages).map (agentRunMessage agentRunID)
        executions := executions } := by
      rcases hcas with ⟨hst, _, rfl, rfl⟩ | ⟨hst, executions, he, rfl⟩
      · rw [h.markDelivered_repeated hfd hst, filter_delivered hst]
        refine ⟨rfl, t.executions, ?_⟩
        show t = { t with agentRunMessages := t.agentRunMessages ++ [] }
        rw [append_nil]
      · obtain ⟨_, rfl, _⟩ :=
          Store.rows_appendExecutionEvent (R := fun _ _ => False) he
        rw [filter_undelivered hst, ← h.updateInbox hfd hst]
        refine ⟨rfl, executions, ?_⟩
        rw [Option.toList_some, flatMap_cons, flatMap_nil, append_nil]
        rfl
    obtain ⟨hid, executions, ht'⟩ := hhead
    have hin : t.inbox = s.inbox.map (markDelivered [requestID] activity.id) := by rw [ht']
    have hkeyed : Keyed t.inbox := hin ▸ h.map fun r => content_markDelivered _ _ r
    obtain ⟨⟨executions', rfl⟩, hrows⟩ := ih hkeyed hnd hs
    rw [undelivered_markDelivered hnew hin, hid] at hrows
    refine ⟨⟨executions', ?_⟩, ?_⟩
    · rw [undelivered_markDelivered hnew hin, hin, map_markDelivered_cons,
        flatMap_append, map_append, ← append_assoc, ht']
    · intro r hr
      rcases mem_append.1 hr with hr | hr
      · cases (Option.filter_eq_some_iff.1 (Option.mem_toList.1 hr)).1
        exact hof
      · exact hrows r hr

end Tables

end Delivery

/-! ## Changes of the table -/

/-- The other changes of the table: a row is inserted, or a deferred one is handed to another
execution. -/
inductive InboxChange (inbox : List ExecutionInboxMessage) : List ExecutionInboxMessage → Prop
  | insert (row : ExecutionInboxMessage)
      (fresh : ∀ r ∈ inbox, r.id ≠ row.id ∧ r.requestID ≠ row.requestID)
      (later : ∀ r ∈ inbox, r.executionID = row.executionID → r.sequence < row.sequence)
      (waiting : row.state ≠ .delivered) : InboxChange inbox (inbox ++ [row])
  | forward (message : ExecutionInboxMessage) (mem : message ∈ inbox)
      (waiting : message.state = .deferred) (target : UUID) :
      InboxChange inbox (inbox.map fun r => if r.id == message.id then
        { r with state := .forwarded, forwardedExecutionID := some target } else r)

variable {executionID newID : UUID} {input : AcceptExecutionMessageInput}

section Changes
variable {a : Action}

theorem le_foldl_max (f : ExecutionInboxMessage → Nat) (rows : List ExecutionInboxMessage)
    (n : Nat) : n ≤ rows.foldl (fun n row => max n (f row)) n ∧
      ∀ row ∈ rows, f row ≤ rows.foldl (fun n row => max n (f row)) n := by
  induction rows generalizing n with
  | nil => exact ⟨Nat.le_refl n, nofun⟩
  | cons row rows ih =>
    obtain ⟨hle, hrows⟩ := ih (max n (f row))
    rw [foldl_cons]
    refine ⟨by omega, fun r hr => ?_⟩
    rcases mem_cons.1 hr with rfl | hr
    · omega
    · exact hrows r hr

theorem Inserted.change (h : Inserted s executionID row) :
    InboxChange s.inbox (s.inbox ++ [row]) := by
  refine .insert row (fun r hr => ⟨(h.keys r hr).1, (h.keys r hr).2.1⟩) (fun r hr hof => ?_)
    h.undelivered.1
  have hmem : r ∈ s.inboxOf executionID :=
    mem_filter.2 ⟨hr, beq_iff_eq.2 (hof.trans h.execution)⟩
  have hle := (le_foldl_max (·.sequence) (s.inboxOf executionID) 0).2 r hmem
  rw [h.sequence]
  exact Nat.lt_succ_of_le hle

theorem InsertedChildRow.inbox (h : InsertedChildRow s execution input newID row s') :
    InboxChange s.inbox s'.inbox := by
  obtain ⟨_, _, _, rfl⟩ := h.written
  exact h.inserted.change

namespace Tables

theorem inbox_bindDeferred (h : bindDeferredExecution cfg s answers target inboxID = .ok s') :
    ReflTransGen InboxChange s.inbox s'.inbox := by
  rcases bindDeferredExecution_ok h with rfl | ⟨message, _, _, _, hmem, hst, _, _, rfl⟩
  · exact .refl
  · exact .single (.forward message hmem hst.1 target.id)

theorem inbox_createExecution {answers : CreationAnswers} {input : CreateExecutionInput}
    (h : createExecution cfg s answers input = .ok s') :
    ReflTransGen InboxChange s.inbox s'.inbox := by
  rcases createExecution_ok h with ⟨_, _, h⟩ | ⟨created, t, u, _, ht, hu, h⟩
  · exact inbox_bindDeferred h
  · obtain ⟨_, rfl⟩ := insertExecution_ok ht
    have hbd := inbox_bindDeferred hu
    obtain ⟨_, _, _, rfl | ⟨_, _, _, rfl⟩⟩ := recordExecutionCreation_ok h
    · exact hbd
    · exact hbd

theorem inbox_acceptChild
    (h : acceptChildExecutionMessage cfg s executionID input noticeID newID = .ok (row, s')) :
    ReflTransGen InboxChange s.inbox s'.inbox := by
  obtain ⟨execution, _, ⟨_, _, rfl⟩ | ⟨_, _, h⟩ | ⟨_, _, h⟩⟩ :=
    acceptChildExecutionMessage_ok h
  · exact .refl
  · obtain ⟨_, executions, _, _, t, _, _, ht, hrow⟩ := h
    refine ReflTransGen.tail ?_ hrow.inbox
    rcases ht with ⟨rfl, _⟩ | ⟨_, notice, hnot⟩
    · exact .refl
    · exact .single hnot.inbox
  · exact .single h.inbox

end Tables

/-- **What the calls that deliver nothing do to the inboxes.** -/
theorem inbox_act (hdl : a.delivers = false) (h : act cfg w a = .ok w') :
    ReflTransGen InboxChange w.tables.inbox w'.tables.inbox := by
  have of_eq : ∀ {inbox}, inbox = w.tables.inbox → ReflTransGen InboxChange w.tables.inbox inbox :=
    fun heq => heq ▸ .refl
  cases act_acted h with
  | reserve | abandon | release | worker | executions => exact .refl
  | admitted hs => exact of_eq (Tables.admitTurn_ok hs).2.2.others.inbox
  | write _ hwr | recover hwr => exact of_eq hwr.others.inbox
  | @restore _ _ _ _ _ turn _ hs =>
    rcases hs.written with ⟨rfl, _⟩ | ⟨_, _, _, _, _, rfl⟩
    · exact .refl
    · exact of_eq (Tables.others_restoreRootTurnRow cfg _ turn _).inbox
  | acquire _ hs =>
    rcases hs.written with ⟨_, _, _, rfl⟩ | ⟨_, hadm⟩
    · exact .refl
    · exact of_eq (Tables.admitTurn_ok hadm).2.2.others.inbox
  | cancel => exact of_eq (Tables.writes_requestCancel _ w.active).others.inbox
  | deliver => cases hdl
  | complete hs => exact of_eq (Tables.holders_complete hs).2
  | aside call =>
    cases call with
    | create hs => exact Tables.inbox_createExecution hs
    | @accept _ _ _ _ deferred _ _ _ hs =>
      obtain ⟨execution, _, ⟨_, _, rfl⟩ | ⟨_, hs⟩⟩ :=
        Tables.acceptExecutionInbox_ok (acceptanceState_cases deferred) hs
      · exact .refl
      · obtain rfl := hs.written
        exact .single hs.inserted.change
    | acceptChild hs => exact Tables.inbox_acceptChild hs
    | queueReport hs =>
      obtain ⟨execution, row, e, executions, _, hins, _, _, rfl⟩ := Tables.queueReport_ok hs
      exact .single hins.change
    | deliverChild => cases hdl

end Changes

/-! ## Deliveries -/

/-- The activity that delivered a request, where an entry tells it. -/
def Entry.deliveredBy? (requestID : UUID) : Entry → Option UUID
  | .delivered id activityID => if id = requestID then some activityID else none
  | _ => none

/-- The activities that took the messages of a request. -/
def deliveries (history : List Entry) (requestID : UUID) : List UUID :=
  history.filterMap (Entry.deliveredBy? requestID)

section Deliveries
variable {cfg : Config} {s : Tables} {w w' : World} {a : Action} {told history : List Entry}
  {requestID activityID : UUID}

theorem deliveries_append (told history : List Entry) (requestID : UUID) :
    deliveries (told ++ history) requestID =
      deliveries told requestID ++ deliveries history requestID :=
  filterMap_append

theorem mem_of_deliveries (h : activityID ∈ deliveries history requestID) :
    Entry.delivered requestID activityID ∈ history := by
  obtain ⟨entry, hent, hby⟩ := mem_filterMap.1 h
  cases entry with
  | delivered =>
    obtain ⟨hid, hby⟩ := of_guard hby
    cases hby
    exact hid ▸ hent
  | _ => cases hby

theorem deliveries_eq_nil (h : ∀ activityID, Entry.delivered requestID activityID ∉ history) :
    deliveries history requestID = [] :=
  eq_nil_iff_forall_not_mem.2 fun activityID hmem => h activityID (mem_of_deliveries hmem)

theorem deliveries_map {requestIDs : List UUID} (hnd : requestIDs.Nodup) (requestID : UUID) :
    deliveries (requestIDs.map fun id => .delivered id activityID) requestID =
      if requestID ∈ requestIDs then [activityID] else [] := by
  induction requestIDs with
  | nil => rfl
  | cons id requestIDs ih =>
    obtain ⟨hnew, hnd⟩ := nodup_cons.1 hnd
    rw [deliveries, map_cons, filterMap_cons, Entry.deliveredBy?]
    by_cases hid : id = requestID
    · subst hid
      have hrest : deliveries (requestIDs.map fun id => .delivered id activityID) id = [] := by
        rw [ih hnd, if_neg hnew]
      rw [if_pos rfl, if_pos mem_cons_self]
      exact congrArg (activityID :: ·) hrest
    · have hmem : requestID ∈ id :: requestIDs ↔ requestID ∈ requestIDs :=
        ⟨fun h => (mem_cons.1 h).resolve_left fun heq => hid heq.symm, mem_cons_of_mem _⟩
      rw [if_neg hid]
      simp only [hmem]
      exact ih hnd

/-- The inboxes and the history agree: a row that is delivered was delivered once, by the activity it
remembers, any other row was not delivered. -/
structure Inboxed (inbox : List ExecutionInboxMessage) (history : List Entry) : Prop where
  keyed : Keyed inbox
  once : ∀ row ∈ inbox,
    (row.state = .delivered ∧ ∃ activityID, row.deliveredActivityID = some activityID ∧
      deliveries history row.requestID = [activityID]) ∨
    (row.state ≠ .delivered ∧ deliveries history row.requestID = [])
  known : ∀ requestID activityID, Entry.delivered requestID activityID ∈ history →
    ∃ row ∈ inbox, row.requestID = requestID

theorem Inboxed.change (h : Inboxed inbox history) (hchg : InboxChange inbox inbox') :
    Inboxed inbox' history := by
  cases hchg with
  | insert row fresh later waiting =>
    refine ⟨⟨?_, ?_, ?_⟩, ?_, ?_⟩
    · exact nodup_snoc h.keyed.ids fun r hr => (fresh r hr).1
    · exact nodup_snoc h.keyed.requests fun r hr => (fresh r hr).2
    · refine pairwise_append.2 ⟨h.keyed.ordered, pairwise_singleton _ _, ?_⟩
      intro r hr r' hr' hof
      cases mem_singleton.1 hr'
      exact later r hr hof
    · intro r hr
      rcases mem_snoc.1 hr with hr | hr
      · exact h.once r hr
      · cases hr
        refine .inr ⟨waiting, deliveries_eq_nil fun activityID hmem => ?_⟩
        obtain ⟨r, hr, hreq⟩ := h.known _ _ hmem
        exact (fresh r hr).2 hreq
    · intro requestID activityID hmem
      obtain ⟨r, hr, hreq⟩ := h.known requestID activityID hmem
      exact ⟨r, mem_append_left _ hr, hreq⟩
  | forward message mem waiting target =>
    have hcont : ∀ r : ExecutionInboxMessage, (if r.id == message.id then
        { r with state := .forwarded, forwardedExecutionID := some target } else r).content =
        r.content := by
      intro r
      split <;> rfl
    refine ⟨h.keyed.map hcont, ?_, ?_⟩
    · intro r' hr'
      obtain ⟨r, hr, rfl⟩ := mem_map.1 hr'
      have hrow := h.once r hr
      split
      next hid =>
        cases h.keyed.eq_of_id hr mem (beq_iff_eq.1 hid)
        refine .inr ⟨nofun, ?_⟩
        rcases hrow with ⟨hst, _⟩ | ⟨_, hnone⟩
        · cases waiting.symm.trans hst
        · exact hnone
      · exact hrow
    · intro requestID activityID hmem
      obtain ⟨r, hr, hreq⟩ := h.known requestID activityID hmem
      exact ⟨_, mem_map_of_mem hr, (ExecutionInboxMessage.keys_of_content (hcont r)).2.1.trans hreq⟩

theorem Inboxed.changes (h : Inboxed inbox history)
    (hch : ReflTransGen InboxChange inbox inbox') : Inboxed inbox' history := by
  induction hch with
  | refl => exact h
  | tail _ hchg ih => exact ih.change hchg

theorem Inboxed.silent (h : Inboxed inbox history)
    (htold : ∀ requestID activityID, Entry.delivered requestID activityID ∉ told) :
    Inboxed inbox (told ++ history) := by
  have hsame : ∀ requestID, deliveries (told ++ history) requestID =
      deliveries history requestID := by
    intro requestID
    rw [deliveries_append, deliveries_eq_nil fun activityID => htold requestID activityID]
    rfl
  refine ⟨h.keyed, fun row hrow => hsame row.requestID ▸ h.once row hrow, ?_⟩
  intro requestID activityID hmem
  exact h.known requestID activityID ((mem_append.1 hmem).resolve_left (htold requestID activityID))

theorem Inboxed.deliver {requestIDs : List UUID} (h : Inboxed s.inbox history)
    (hnd : requestIDs.Nodup) : Inboxed (s.inbox.map (markDelivered requestIDs activityID))
      (deliveredEntries s activityID requestIDs ++ history) := by
  refine ⟨h.keyed.map fun row => content_markDelivered _ _ row, ?_, ?_⟩
  · intro row' hrow'
    obtain ⟨row, hrow, rfl⟩ := mem_map.1 hrow'
    rw [requestID_markDelivered, deliveries_append, deliveredEntries, deliveries_map (hnd.filter _)]
    have hfd := h.keyed.inboxRequest?_eq hrow
    have hmem : row.requestID ∈ requestIDs.filter
        (fun id => (s.inboxRequest? id).any (·.state != .delivered)) ↔
        row.requestID ∈ requestIDs ∧ row.state ≠ .delivered := by
      rw [mem_filter, hfd]
      exact and_congr_right' bne_iff_ne
    unfold markDelivered
    by_cases hnm : row.requestID ∈ requestIDs ∧ row.state ≠ .delivered
    · rw [if_pos hnm, if_pos (hmem.2 hnm)]
      rcases h.once row hrow with ⟨hst, _⟩ | ⟨_, hnone⟩
      · exact absurd hst hnm.2
      · exact .inl ⟨rfl, activityID, rfl, congrArg (activityID :: ·) hnone⟩
    · rw [if_neg hnm, if_neg fun hin => hnm (hmem.1 hin)]
      exact h.once row hrow
  · intro requestID activityID' hmem
    have hrow : ∃ row ∈ s.inbox, row.requestID = requestID := by
      rcases mem_append.1 hmem with hmem | hmem
      · obtain ⟨id, hid, heq⟩ := mem_map.1 hmem
        cases heq
        obtain ⟨_, hany⟩ := mem_filter.1 hid
        cases hfd : s.inboxRequest? requestID with
        | none =>
          rw [hfd] at hany
          cases hany
        | some row => exact ⟨row, Tables.mem_of_inboxRequest? hfd⟩
      · exact h.known requestID activityID' hmem
    obtain ⟨row, hrow, hreq⟩ := hrow
    exact ⟨_, mem_map_of_mem hrow, (requestID_markDelivered _ _ row).trans hreq⟩

/-- A delivery: a running model activity of an execution at work appends the messages of the rows its
saved input names, as far as they are not delivered, and marks them. -/
structure Delivers (cfg : Config) (w w' : World) (requestIDs : List UUID)
    (activity : ExecutionActivity) (execution : Execution) : Prop where
  running : activity ∈ w.tables.executions.activities ∧ activity.kind = .model ∧
    activity.state = .running ∧ activity.executionID = execution.id
  working : execution ∈ w.rows ∧ execution.state ≠ .paused ∧
    isExecutionTerminal execution.state = false
  named : cfg.inboxIDs activity.inputJSON = some requestIDs ∧ requestIDs.Nodup
  own : ∀ row ∈ w.tables.undelivered requestIDs, row.executionID = execution.id
  told : w'.history = deliveredEntries w.tables activity.id requestIDs ++ w.history
  marked : w'.tables.inbox = w.tables.inbox.map (markDelivered requestIDs activity.id)
  appended :
    (∃ newID new, newMessages cfg execution.rootTurnID newID w.tables.messageCount
        ((w.tables.undelivered requestIDs).flatMap Tables.inboxTranscriptMessages) = .ok new ∧
      w'.tables.messages = w.tables.messages ++ new ∧
      w'.tables.agentRunMessages = w.tables.agentRunMessages) ∨
    (w'.tables.messages = w.tables.messages ∧
      w'.tables.agentRunMessages = w.tables.agentRunMessages ++
        ((w.tables.undelivered requestIDs).flatMap Tables.inboxTranscriptMessages).map
          (Tables.agentRunMessage (execution.agentRunID.getD UUID.nil)))

/-- The requests a delivery names. -/
def Action.requestIDs : Action → List UUID
  | .deliverMessages _ _ requestIDs _ | .deliverChildMessages _ _ requestIDs => requestIDs
  | _ => []

/-- **What a call that delivers does.** -/
theorem act_delivers (hkeyed : Keyed w.tables.inbox) (hdl : a.delivers = true)
    (h : act cfg w a = .ok w') : ∃ activity execution,
      Delivers cfg w w' a.requestIDs activity execution := by
  cases a with
  | deliverMessages turnLease modelLease requestIDs newID =>
    obtain ⟨s, hs, h⟩ := of_bind h
    cases h
    obtain ⟨activity, execution, hs⟩ := Tables.deliverMessages_ok hs
    obtain ⟨hmem, _, hid, _⟩ := Store.of_activityForLease hs.found
    obtain ⟨hwork, hof, _⟩ := Store.mem_of_activityForLease hs.found
    have hcan := hs.deliverable
    unfold Tables.canDeliverExecutionInbox at hcan
    simp only [Bool.and_eq_true, beq_iff_eq, bne_iff_ne, Bool.not_eq_true'] at hcan
    obtain ⟨⟨⟨⟨⟨hkind, hst⟩, _⟩, hpau⟩, hend⟩, hturn⟩ := hcan
    obtain ⟨messages, t, ht, happend⟩ := hs.written
    obtain ⟨rfl, rfl, hown⟩ := Tables.deliverInboxRows_spec hkeyed hs.named.2 ht
    obtain ⟨new, hnew, _, rfl⟩ := Tables.appendTranscript_ok happend
    refine ⟨activity, execution, ⟨hmem, hkind, hst, hof.symm⟩,
      ⟨hwork, hpau, hend⟩, hs.named, hown, ?_, rfl, .inl ⟨newID, new, ?_, rfl, rfl⟩⟩
    · rw [hid]
      rfl
    · rw [hturn]
      exact hnew
  | deliverChildMessages =>
    obtain ⟨s, hs, h⟩ := of_bind h
    cases h
    obtain ⟨activity, execution, hs⟩ := Tables.deliverChildExecutionMessages_ok hs
    obtain ⟨hmem, _, hid, _⟩ := Store.of_activityForLease hs.found
    obtain ⟨hwork, hof, _⟩ := Store.mem_of_activityForLease hs.found
    have hcan := hs.deliverable
    unfold Tables.canDeliverChildInbox at hcan
    simp only [Bool.and_eq_true, beq_iff_eq, bne_iff_ne, Bool.not_eq_true'] at hcan
    obtain ⟨⟨⟨⟨⟨hkind, hst⟩, _⟩, _⟩, hpau⟩, hend⟩ := hcan
    obtain ⟨⟨executions, rfl⟩, hown⟩ :=
      Tables.deliverChildInboxRows_spec hkeyed hs.named.2 hs.written
    refine ⟨activity, execution, ⟨hmem, hkind, hst, hof.symm⟩,
      ⟨hwork, hpau, hend⟩, hs.named, hown, ?_, rfl, .inr ⟨rfl, rfl⟩⟩
    rw [hid]
    rfl
  | _ => cases hdl

theorem silent_act (hpr : w.presents a = true) (hdl : a.delivers = false)
    (h : act cfg w a = .ok w') : ∃ told, w'.history = told ++ w.history ∧
      ∀ requestID activityID, Entry.delivered requestID activityID ∉ told := by
  obtain ⟨told, htold, htel⟩ := (act_turnsStep hpr h).told
  refine ⟨told, htold, fun requestID activityID hmem => ?_⟩
  rcases htel _ hmem with htel | hls | ⟨_, hadm, _⟩
  · cases htel with
    | delivered _ _ delivers => cases hdl.symm.trans delivers
  · cases hls
  · cases hadm

/-- **Every call keeps inboxes and history in agreement.** -/
theorem act_inboxed (hw : Inboxed w.tables.inbox w.history) (hpr : w.presents a = true)
    (h : act cfg w a = .ok w') : Inboxed w'.tables.inbox w'.history := by
  cases hdl : a.delivers with
  | false =>
    obtain ⟨told, htold, hsilent⟩ := silent_act hpr hdl h
    rw [htold]
    exact (hw.changes (inbox_act hdl h)).silent hsilent
  | true =>
    obtain ⟨activity, execution, hdel⟩ := act_delivers hw.keyed hdl h
    rw [hdel.told, hdel.marked]
    exact hw.deliver hdel.named.2

theorem inboxed_new : Inboxed World.new.tables.inbox World.new.history where
  keyed := ⟨.nil, .nil, .nil⟩
  once := nofun
  known := nofun

theorem exec_inboxed (hw : Inboxed w.tables.inbox w.history)
    (h : exec (step cfg) w actions = some w') : Inboxed w'.tables.inbox w'.history := by
  have hkept : Always (step cfg) (fun w => Inboxed w.tables.inbox w.history) w actions := by
    refine Always.of_step ?_ hw
    intro w a w' hw h
    obtain ⟨hpr, h⟩ := step_eq_some h
    exact act_inboxed hw hpr h
  exact hkept.last h

end Deliveries

/-! ## Repeated requests -/

/-- A delivery takes the row of this request although it is deferred. -/
def TakesDeferred (requestID : UUID) (w : World) (a : Action) : Prop :=
  requestID ∈ a.requestIDs ∧ (w.tables.inboxRequest? requestID).any isDeferred

instance : Decidable (TakesDeferred requestID w a) := inferInstanceAs (Decidable (_ ∧ _))

/-- A row some calls later: its content is the same, it stays delivered, and it is deferred as it was
unless it was taken, which delivers it. -/
structure LaterRow (taken : Prop) (row row' : ExecutionInboxMessage) : Prop where
  content : row'.content = row.content
  delivered : row.state = .delivered → row'.state = .delivered
  kept : ¬ taken → isDeferred row' = isDeferred row
  lost : taken → isDeferred row = true ∧ row'.state = .delivered

section Repeats
variable {cfg : Config} {w : World} {row row' : ExecutionInboxMessage}

theorem LaterRow.refl (row : ExecutionInboxMessage) : LaterRow False row row :=
  ⟨rfl, id, fun _ => rfl, nofun⟩

theorem LaterRow.trans (h : LaterRow p row row') (h' : LaterRow q row' row'') :
    LaterRow (p ∨ q) row row'' where
  content := h'.content.trans h.content
  delivered := fun hst => h'.delivered (h.delivered hst)
  kept := fun hnot => (h'.kept fun hq => hnot (.inr hq)).trans (h.kept fun hp => hnot (.inl hp))
  lost := by
    intro htaken
    by_cases hp : p
    · exact ⟨(h.lost hp).1, h'.delivered (h.lost hp).2⟩
    · obtain ⟨hdeferred, hst⟩ := h'.lost (htaken.resolve_left hp)
      exact ⟨(h.kept hp).symm.trans hdeferred, hst⟩

theorem LaterRow.mode (h : LaterRow p row row') :
    isDeferred row' = isDeferred row ∨ isDeferred row = true ∧ row'.state = .delivered := by
  by_cases hp : p
  · exact .inr (h.lost hp)
  · exact .inl (h.kept hp)

/-- A row keeps its mode exactly if it is not taken. -/
theorem LaterRow.mode_iff (h : LaterRow (¬ p) row row') : isDeferred row' = isDeferred row ↔ p := by
  refine ⟨fun hmode => by_contra fun hp => ?_, fun hp => h.kept (not_not.2 hp)⟩
  obtain ⟨hdeferred, hst⟩ := h.lost hp
  rw [hdeferred, isDeferred, hst] at hmode
  cases hmode

theorem InboxChange.kept (hkeyed : Keyed inbox) (h : InboxChange inbox inbox')
    (hrow : row ∈ inbox) : ∃ row' ∈ inbox', LaterRow False row row' := by
  cases h with
  | insert => exact ⟨row, mem_append_left _ hrow, .refl row⟩
  | forward message mem waiting target =>
    refine ⟨_, mem_map_of_mem hrow, ?_⟩
    split
    next hid =>
      cases hkeyed.eq_of_id hrow mem (beq_iff_eq.1 hid)
      refine ⟨rfl, fun hst => ?_, fun _ => ?_, nofun⟩
      · cases waiting.symm.trans hst
      · simp [isDeferred, waiting]
    · exact .refl row

/-- A delivery takes exactly the deferred rows it names. -/
theorem later_markDelivered (requestIDs : List UUID) (activityID : UUID)
    (row : ExecutionInboxMessage) :
    LaterRow (row.requestID ∈ requestIDs ∧ isDeferred row = true) row
      (markDelivered requestIDs activityID row) := by
  refine ⟨content_markDelivered _ _ row, fun hst => ?_, fun hnot => ?_, fun htaken => ?_⟩
  · unfold markDelivered
    rw [if_neg fun hnm => hnm.2 hst]
    exact hst
  · unfold markDelivered
    split
    next hnm =>
      rw [Bool.eq_false_iff.2 fun hdeferred => hnot ⟨hnm.1, hdeferred⟩]
      rfl
    · rfl
  · refine ⟨htaken.2, ?_⟩
    have hst : row.state ≠ .delivered := by
      intro hst
      have hdeferred := htaken.2
      rw [isDeferred, hst] at hdeferred
      cases hdeferred
    unfold markDelivered
    rw [if_pos ⟨htaken.1, hst⟩]
    rfl

theorem requestIDs_of_delivers {a : Action} (hdl : a.delivers = false) : a.requestIDs = [] := by
  cases a <;> first | rfl | cases hdl

/-- **What a call does to a row.** It takes a deferred one, or leaves its mode. -/
theorem act_row_kept (hw : Inboxed w.tables.inbox w.history) (h : act cfg w a = .ok w')
    (hrow : row ∈ w.tables.inbox) :
    ∃ row' ∈ w'.tables.inbox, LaterRow (TakesDeferred row.requestID w a) row row' := by
  unfold TakesDeferred
  rw [hw.keyed.inboxRequest?_eq hrow, Option.any_some]
  cases hdl : a.delivers with
  | false =>
    have hch := inbox_act hdl h
    generalize w'.tables.inbox = inbox' at hch
    have hboth : Inboxed inbox' w.history ∧ ∃ row' ∈ inbox', LaterRow False row row' := by
      induction hch with
      | refl => exact ⟨hw, row, hrow, .refl row⟩
      | tail _ hchg ih =>
        obtain ⟨hinb, row', hrow', hlat⟩ := ih
        obtain ⟨row'', hrow'', hlat'⟩ := hchg.kept hinb.keyed hrow'
        rw [← or_false False]
        exact ⟨hinb.change hchg, row'', hrow'', hlat.trans hlat'⟩
    simpa only [requestIDs_of_delivers hdl, not_mem_nil, false_and] using hboth.2
  | true =>
    obtain ⟨activity, execution, hdel⟩ := act_delivers hw.keyed hdl h
    rw [hdel.marked]
    exact ⟨_, mem_map_of_mem hrow, later_markDelivered a.requestIDs activity.id row⟩

/-- **What a run does to a row.** It is taken by a call of the run, or its mode is left. -/
theorem exec_row_kept (hw : Inboxed w.tables.inbox w.history)
    (h : exec (step cfg) w actions = some w') (hrow : row ∈ w.tables.inbox) :
    ∃ row' ∈ w'.tables.inbox, LaterRow
      (¬ Along (step cfg) (fun w a => ¬ TakesDeferred row.requestID w a) w actions) row row' := by
  induction actions generalizing w row with
  | nil =>
    cases h
    simpa only [Along, not_true_eq_false] using ⟨row, hrow, .refl row⟩
  | cons a actions ih =>
    obtain ⟨u, hstep, h⟩ := Option.bind_eq_some_iff.1 h
    obtain ⟨hpr, hu⟩ := step_eq_some hstep
    obtain ⟨row', hrow', hlat⟩ := act_row_kept hw hu hrow
    obtain ⟨row'', hrow'', hlat'⟩ := ih (act_inboxed hw hpr hu) h hrow'
    rw [(ExecutionInboxMessage.keys_of_content hlat.content).2.1] at hlat'
    refine ⟨row'', hrow'', ?_⟩
    simpa only [Along, hstep, Option.some.injEq, forall_eq', not_and_or, not_not] using
      hlat.trans hlat'

theorem sameInboxInput_of_content (h : row'.content = row.content) (executionID : UUID)
    (input : AcceptExecutionMessageInput) :
    sameInboxInput row' executionID input = sameInboxInput row executionID input := by
  show sameInboxInput row'.content executionID input = sameInboxInput row.content executionID input
  rw [h]

theorem sameInboxInput_inboxRow (id executionID turnID : UUID)
    (input : AcceptExecutionMessageInput) (sequence : Nat) (state : InboxMessageState)
    (revision : Nat) :
    sameInboxInput (inboxRow id executionID turnID input sequence state revision) executionID input
      = true := by
  unfold sameInboxInput inboxRow sameOptionalID
  by_cases hsrc : input.sourceEventID = UUID.nil
  · simp [hsrc]
  · simp [hsrc]

/-- The request and its row agree in what a repetition is compared by. The capacity, the notice of a
resume and the expected stop revision are no part of it. -/
structure SameRequest (row : ExecutionInboxMessage) (executionID : UUID)
    (input : AcceptExecutionMessageInput) : Prop where
  executionID : row.executionID = executionID
  message : row.message = input.message
  workingDirectory : row.workingDirectory = input.workingDirectory
  parts : row.parts = input.parts
  images : row.images = input.images
  sourceEventID : row.sourceEventID.getD UUID.nil = input.sourceEventID

theorem sameInboxInput_iff :
    sameInboxInput row executionID input = true ↔ SameRequest row executionID input := by
  have hid : sameOptionalID row.sourceEventID input.sourceEventID = true ↔
      row.sourceEventID.getD UUID.nil = input.sourceEventID := by
    cases row.sourceEventID with
    | none => exact beq_iff_eq.trans eq_comm
    | some id => exact beq_iff_eq
  simp only [sameInboxInput, Bool.and_eq_true, beq_iff_eq, hid, and_assoc]
  exact ⟨fun ⟨h₁, h₂, h₃, h₄, h₅, h₆⟩ => ⟨h₁, h₂, h₃, h₄, h₅, h₆⟩,
    fun ⟨h₁, h₂, h₃, h₄, h₅, h₆⟩ => ⟨h₁, h₂, h₃, h₄, h₅, h₆⟩⟩

instance : Decidable (SameRequest row executionID input) :=
  decidable_of_iff _ sameInboxInput_iff

/-- How the request of a row is answered when it is repeated: with the row where the input and the
mode are the same, and with a conflict otherwise. -/
structure Repeated (cfg : Config) (w : World) (row : ExecutionInboxMessage) : Prop where
  root : ∀ boundary executionID lease input deferred newID execution,
    input.requestID = row.requestID → validateExecutionInboxInput cfg input = .ok () →
    hasLease w.active lease → w.tables.executions.findExecution cfg.sessionID executionID =
      .ok execution → validateInboxExecution execution lease = .ok () →
    Tables.acceptExecutionInbox cfg w.tables w.active boundary executionID lease input
      (acceptanceState deferred) newID =
    if isDeferred row = deferred ∧ SameRequest row executionID input then .ok (row, w.tables)
    else .error ⟨.conflict, "accepted inbox input or delivery mode differs"⟩
  child : ∀ executionID input noticeID newID execution,
    input.requestID = row.requestID → validateExecutionInboxInput cfg input = .ok () →
    w.tables.executions.findExecution cfg.sessionID executionID = .ok execution →
    Tables.validateChildInboxExecution execution = .ok () →
    Tables.acceptChildExecutionMessage cfg w.tables executionID input noticeID newID =
    if SameRequest row executionID input then .ok (row, w.tables)
    else .error ⟨.conflict, "child inbox request changed"⟩

theorem Keyed.repeated (h : Keyed w.tables.inbox) (hrow : row ∈ w.tables.inbox) :
    Repeated cfg w row := by
  have hfd := h.inboxRequest?_eq hrow
  refine ⟨?_, ?_⟩
  · intro boundary executionID lease input deferred newID execution hreq hval hheld hfind hroot
    simp only [← sameInboxInput_iff]
    rw [← hreq] at hfd
    have hhold : holdLease w.active lease = .ok () := if_pos hheld
    have hmode : (acceptanceState deferred == .deferred) = deferred := by cases deferred <;> rfl
    unfold Tables.acceptExecutionInbox Tables.acceptExecutionMessage
    simp only [hval, hhold, hfind, hroot, hfd, bind, Except.bind]
    unfold validateInboxReplay
    rw [hmode]
    by_cases hsame : isDeferred row = deferred ∧ sameInboxInput row executionID input = true
    · rw [if_pos hsame, if_neg]
      rintro (hdif | hdif)
      · exact hdif hsame.1
      · cases hdif.symm.trans hsame.2
    · rw [if_neg hsame, if_pos]
      by_cases hdeferred : isDeferred row = deferred
      · exact .inr (Bool.eq_false_iff.2 fun hinp => hsame ⟨hdeferred, hinp⟩)
      · exact .inl hdeferred
  · intro executionID input noticeID newID execution hreq hval hfind hchild
    simp only [← sameInboxInput_iff]
    rw [← hreq] at hfd
    unfold Tables.acceptChildExecutionMessage Tables.acceptChildInboxMessage
    simp only [hval, hfind, hchild, hfd, bind, Except.bind]

theorem act_accepted
    (h : act cfg w (.acceptMessage boundary executionID lease input deferred newID) = .ok w') :
    ∃ row ∈ w'.tables.inbox, row.requestID = input.requestID ∧
      sameInboxInput row executionID input ∧ isDeferred row = deferred := by
  obtain ⟨⟨row, s⟩, hs, h⟩ := of_bind h
  cases h
  obtain ⟨execution, hfor, ⟨hfd, hreplay, rfl⟩ | ⟨_, hs⟩⟩ :=
    Tables.acceptExecutionInbox_ok (acceptanceState_cases deferred) hs
  · obtain ⟨hmem, hreq⟩ := Tables.mem_of_inboxRequest? hfd
    obtain ⟨hsame, hreplay⟩ := of_check hreplay
    rw [not_or, Decidable.not_not, Bool.not_eq_false] at hsame
    refine ⟨row, hmem, hreq, hsame.2, hsame.1.trans ?_⟩
    cases deferred <;> rfl
  · obtain rfl := hs.written
    refine ⟨row, mem_concat_self, ?_⟩
    rw [hs.values, (Store.of_findExecution hfor.found).2]
    refine ⟨rfl, sameInboxInput_inboxRow _ _ _ _ _ _ _, ?_⟩
    cases deferred <;> rfl

theorem act_child_accepted
    (h : act cfg w (.acceptChildMessage executionID input noticeID newID) = .ok w') :
    ∃ row ∈ w'.tables.inbox, row.requestID = input.requestID ∧
      sameInboxInput row executionID input := by
  obtain ⟨⟨row, s⟩, hs, h⟩ := of_bind h
  cases h
  obtain ⟨execution, hfd, hcas⟩ := Tables.acceptChildExecutionMessage_ok hs
  have hid := (Store.of_findExecution hfd).2
  have of_inserted : ∀ {t : Tables} {e : Execution}, e.id = execution.id →
      InsertedChildRow t e input newID row s → ∃ row ∈ s.inbox,
        row.requestID = input.requestID ∧ sameInboxInput row executionID input := by
    intro t e he hrow
    obtain ⟨_, _, _, rfl⟩ := hrow.written
    refine ⟨row, mem_concat_self, ?_⟩
    rw [hrow.values, he, hid]
    exact ⟨rfl, sameInboxInput_inboxRow _ _ _ _ _ _ _⟩
  rcases hcas with ⟨hrow, hsame, rfl⟩ | ⟨_, _, hrow⟩ | ⟨_, _, hrow⟩
  · obtain ⟨hmem, hreq⟩ := Tables.mem_of_inboxRequest? hrow
    exact ⟨row, hmem, hreq, hsame⟩
  · obtain ⟨_, executions, resumed, noticed, t, _, hres, hnoticed, hrow⟩ := hrow
    refine of_inserted ?_ hrow
    have hresumedID := (Store.of_findExecution hres).2
    rcases hnoticed with ⟨_, rfl⟩ | ⟨rfl, _⟩
    · exact hresumedID
    · exact hresumedID
  · exact of_inserted rfl hrow

end Repeats

def plainMessage : AcceptExecutionMessageInput := ⟨none, 8, UUID.nil, "/work", "and this", [], [], 4, ""⟩

/-- A root with a turn and the message of request 8, sent in this mode. -/
def messageSent (deferred : Bool) : List Action :=
  [.reserveTurn 100 50, .admitTurn ⟨50, 100⟩ (plainTurn 3 "hello") (1000 + ·),
    .createExecution agreedCreation (plainRoot 10 100 "task"),
    .restoreExecutionTurn 10 (plainRestore 0 UUID.nil) 51,
    .acceptMessage (.ok ()) 10 ⟨50, 100⟩ plainMessage deferred 30]

/-- Its model call delivers the message it names. -/
def messageDelivered : List Action :=
  [.claim ⟨40, .ok ()⟩ 10 7 (plainActivity "model" .model "\x7b8\x7d"),
    .deliverMessages ⟨50, 100⟩ ⟨40, 7, 1⟩ [8] (2000 + ·)]

/-- The message is delivered, and its delivery repeated. -/
def deliveredTwice : List Action :=
  messageSent false ++ messageDelivered ++ [.deliverMessages ⟨50, 100⟩ ⟨40, 7, 1⟩ [8] (3000 + ·)]

/-- The request of `plainMessage`, made again as a deferred one. -/
def deferAgain (w : World) : Except Err UUID :=
  (Tables.acceptExecutionInbox plainConfig w.tables w.active (.ok ()) 10 ⟨50, 100⟩ plainMessage
    .deferred 31).map (·.1.id)

end Peen.Sessions
