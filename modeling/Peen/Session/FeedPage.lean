import Peen.Session.FeedRows
import Mathlib.Data.Finset.Dedup
import Mathlib.Data.Finset.Order

/-!
# What a page of the feed holds

The three queries of one `ListFeed` call may see three states of the store.
-/

namespace Peen

open Keyed FeedTables FeedQuery List FeedCall FeedItem FeedItem

section
variable (runs : List AgentRun) (sid : UUID) (it : FeedItem)

/-- A feed item without the parents `attachFeedAgentRunParents` fills in: the stored row. -/
def FeedItem.row : FeedItem :=
  { it with parentTurnID := UUID.nil, parentAgentRunID := none }

@[simp] theorem FeedItem.row_sequence : it.row.sequence = it.sequence := rfl

@[simp] theorem attachParent_row : (attachParent runs sid it).row = it.row := by
  unfold attachParent
  split
  · split <;> rfl
  · rfl

@[simp] theorem attachParent_sequence : (attachParent runs sid it).sequence = it.sequence := by
  rw [← row_sequence, attachParent_row, row_sequence]

end

theorem FeedTables.row_of_mem {db : FeedTables} (hr : r ∈ db.rows sid) : r.row = r := by
  simp only [rows, mem_append, mem_map] at hr
  rcases hr with (⟨x, -, rfl⟩ | ⟨x, -, rfl⟩) | ⟨x, -, rfl⟩ <;> rfl

/-! ## The queries -/

abbrev FeedMarks := FeedKind → Nat

/-- The rows after `cursor` that the queries with these marks could see. -/
def FeedTables.visible (db : FeedTables) (sid : UUID) (cursor : Nat) (marks : FeedMarks) :
    List FeedItem :=
  (db.rows sid).filter fun r => cursor < r.sequence && r.sequence ≤ marks r.kind

/-- The rows one table's query returned, from the rows committed by now. -/
def FeedQuery.table (q : FeedQuery) (db : FeedTables) (k : FeedKind) (mark : Nat) :
    List FeedItem :=
  first sequence (q.limit + 1)
    ((db.rows q.sessionID).filter fun r =>
      r.kind = k && (q.cursor < r.sequence && r.sequence ≤ mark))

section
variable {db db' : FeedTables}

theorem FeedTables.mem_visible {cursor : Nat} :
    r ∈ db.visible sid cursor marks ↔
      r ∈ db.rows sid ∧ cursor < r.sequence ∧ r.sequence ≤ marks r.kind := by
  simp [visible]

theorem listFeedItems_eq {ρ : Type} {session : ρ → UUID} {sequence : ρ → Nat}
    {item : ρ → FeedItem} {l : List ρ} (hseq : ∀ r, (item r).sequence = sequence r)
    (q : FeedQuery) :
    listFeedItems session sequence item l q.sessionID q.cursor q.limit =
      first FeedItem.sequence (q.limit + 1) (((l.filter (session · == q.sessionID)).map item).filter
          fun r => q.cursor < r.sequence) := by
  rw [listFeedItems, ← first_map hseq, filter_map, filter_filter]
  congr 3
  funext r
  simp only [Function.comp_apply, hseq]
  rw [Bool.and_comm]
  rfl

theorem FeedTables.rows_kind (db : FeedTables) (sid : UUID) (p : FeedItem → Bool) :
    ((db.rows sid).filter fun r => r.kind = .event && p r) =
      ((db.events.filter (·.sessionID == sid)).map Event.item).filter p ∧
    ((db.rows sid).filter fun r => r.kind = .agentRunEvent && p r) =
      ((db.agentRunEvents.filter (·.sessionID == sid)).map AgentRunEvent.item).filter p ∧
    ((db.rows sid).filter fun r => r.kind = .notice && p r) =
      ((db.notices.filter (·.sessionID == sid)).map SessionNotice.item).filter p := by
  refine ⟨?_, ?_, ?_⟩ <;>
    simp [rows, filter_map, Function.comp_def, Event.item, AgentRunEvent.item, SessionNotice.item]

end

/-! ## A call under way -/

def FeedCall.reads : FeedCall → FeedKind → Option (List FeedItem)
  | .readSession _, _ => none
  | .readEvents _ e, .event => some e
  | .readEvents _ _, _ => none
  | .readAgentRunEvents _ e _, .event => some e
  | .readAgentRunEvents _ _ a, .agentRunEvent => some a
  | .readAgentRunEvents .., .notice => none
  | .readNotices _ e _ _, .event => some e
  | .readNotices _ _ a _, .agentRunEvent => some a
  | .readNotices _ _ _ n, .notice => some n

def FeedCall.nextKind : FeedCall → Option FeedKind
  | .readSession _ => some .event
  | .readEvents .. => some .agentRunEvent
  | .readAgentRunEvents .. => some .notice
  | .readNotices .. => none

def FeedCall.mark (db : FeedTables) (call : FeedCall) (marks : FeedMarks) : FeedMarks := fun k =>
  if call.nextKind = some k then db.feedHead call.query.sessionID else marks k

/-- What a call under way has read, in terms of the rows committed by now: of every table it has
queried, the rows up to the table's mark. The marks lie between the head the call reported and the
head the session has now. -/
structure FeedCall.Saw (db : FeedTables) (marks : FeedMarks) (call : FeedCall) : Prop where
  limit : 1 ≤ call.query.limit
  head : call.query.head ≤ db.feedHead call.query.sessionID
  reads : ∀ k l, call.reads k = some l →
    l = call.query.table db k (marks k) ∧ call.query.head ≤ marks k ∧
      marks k ≤ db.feedHead call.query.sessionID

section
variable {db db' : FeedTables} {marks : FeedMarks} {call : FeedCall}

theorem FeedCall.saw_start (marks : FeedMarks) {cursor limit : Int}
    (h : start db sid cursor limit = .ok call) :
    call.Saw db marks ∧ call.query.sessionID = sid ∧ (call.query.cursor : Int) = cursor ∧
      (call.query.limit : Int) = limit ∧ call.query.head = db.feedHead sid := by
  unfold start at h
  cases hn : normalizeFeedPage cursor limit with
  | error e => rw [hn] at h; cases h
  | ok p =>
    rw [hn] at h
    cases hs : db.findSession sid with
    | none => rw [hs] at h; cases h
    | some r =>
      rw [hs] at h
      cases h
      have hhead : r.feedSequence = db.feedHead sid := by rw [feedHead, hs]; rfl
      obtain ⟨_, hn⟩ := of_check hn
      obtain ⟨_, hn⟩ := of_check hn
      cases hn
      exact ⟨⟨by simp only [query]; omega, hhead.le, fun k l h => by cases h⟩, rfl,
        by simp only [query]; omega, by simp only [query]; omega, hhead⟩

theorem FeedCall.Saw.extend (h : call.Saw db marks) (hc : db.Contiguous) (hc' : db'.Contiguous)
    (he : db.Extends db') : call.Saw db' marks := by
  refine ⟨h.limit, h.head.trans (he.head _), fun k l hl => ?_⟩
  obtain ⟨rfl, hh, hm⟩ := h.reads k l hl
  refine ⟨?_, hh, hm.trans (he.head _)⟩
  refine first_congr ((hc.distinct _).filter _) ((hc'.distinct _).filter _) (fun x => ?_) _
  simp only [mem_filter, Bool.and_eq_true, decide_eq_true_eq]
  rw [← he.mem_rows hc]
  refine ⟨?_, ?_⟩
  · rintro ⟨⟨hx, -⟩, hk⟩; exact ⟨hx, hk⟩
  · rintro ⟨hx, hk⟩; exact ⟨⟨hx, by omega⟩, hk⟩

theorem FeedQuery.table_now (q : FeedQuery) {n : Nat}
    (hn : ∀ r ∈ db.rows q.sessionID, r.sequence ≤ n) :
    listFeedEventItems db q.sessionID q.cursor q.limit = q.table db .event n ∧
    listFeedAgentRunEventItems db q.sessionID q.cursor q.limit = q.table db .agentRunEvent n ∧
    listFeedNoticeItems db q.sessionID q.cursor q.limit = q.table db .notice n := by
  have hfilter : ∀ k, ((db.rows q.sessionID).filter fun r =>
      r.kind = k && (q.cursor < r.sequence && r.sequence ≤ n)) =
      (db.rows q.sessionID).filter fun r => r.kind = k && decide (q.cursor < r.sequence) := by
    intro k
    refine filter_congr fun r hr => ?_
    simp [hn r hr]
  have hk := db.rows_kind q.sessionID fun r => decide (q.cursor < r.sequence)
  simp only [table, hfilter]
  refine ⟨?_, ?_, ?_⟩
  · rw [hk.1]; exact listFeedItems_eq (fun _ => rfl) q
  · rw [hk.2.1]; exact listFeedItems_eq (fun _ => rfl) q
  · rw [hk.2.2]; exact listFeedItems_eq (fun _ => rfl) q

theorem FeedCall.read_spec (hc : db.Contiguous) (h : call.read db = some call') :
    ∃ k, call.nextKind = some k ∧ call'.query = call.query ∧ ∀ k',
      call'.reads k' = if k' = k then
        some (call.query.table db k (db.feedHead call.query.sessionID)) else call.reads k' := by
  have hnow (q : FeedQuery) := q.table_now fun r hr => (hc.bounds hr).2
  cases call with
  | readSession q =>
    cases h
    refine ⟨.event, rfl, rfl, fun k' => ?_⟩
    cases k' <;> simp [reads, query, (hnow q).1]
  | readEvents q e =>
    cases h
    refine ⟨.agentRunEvent, rfl, rfl, fun k' => ?_⟩
    cases k' <;> simp [reads, query, (hnow q).2.1]
  | readAgentRunEvents q e a =>
    cases h
    refine ⟨.notice, rfl, rfl, fun k' => ?_⟩
    cases k' <;> simp [reads, query, (hnow q).2.2]
  | readNotices => cases h

/-- **One query keeps the description**, with the queried table's mark at the head of now. -/
theorem FeedCall.Saw.read (h : call.Saw db marks) (hc : db.Contiguous)
    (hr : call.read db = some call') :
    call'.Saw db (call.mark db marks) ∧ call'.query = call.query := by
  obtain ⟨k, hk, hq, hrd⟩ := read_spec hc hr
  refine ⟨⟨hq ▸ h.limit, hq ▸ h.head, fun k' l hl => ?_⟩, hq⟩
  rw [hrd] at hl
  rw [hq]
  by_cases hkk : k' = k
  · subst hkk
    rw [if_pos rfl] at hl
    cases hl
    have : call.mark db marks k' = db.feedHead call.query.sessionID := if_pos hk
    rw [this]
    exact ⟨rfl, h.head, Nat.le_refl _⟩
  · rw [if_neg hkk] at hl
    have : call.mark db marks k' = marks k' := by
      simp only [mark, hk, Option.some.injEq, Ne.symm hkk, if_false]
    rw [this]
    exact h.reads k' l hl

/-! ## The page -/

theorem mergeFeedCandidates_eq (e a n : List FeedItem) (limit : Nat) :
    mergeFeedCandidates e a n limit =
      (first sequence limit (e ++ a ++ n), decide (limit < (e ++ a ++ n).length)) := by
  simp only [mergeFeedCandidates, length_sort, first]
  split
  · next h => rw [take_of_length_le (by simpa using h), decide_eq_false (by omega)]
  · next h => rw [decide_eq_true (by omega)]

def FeedQuery.merged (q : FeedQuery) (db : FeedTables) (marks : FeedMarks) : List FeedItem :=
  q.table db .event (marks .event) ++ q.table db .agentRunEvent (marks .agentRunEvent) ++
    q.table db .notice (marks .notice)

theorem FeedQuery.mem_merged {q : FeedQuery} :
    x ∈ q.merged db marks ↔ ∃ k, x ∈ q.table db k (marks k) := by
  simp only [merged, mem_append]
  refine ⟨?_, ?_⟩
  · rintro ((h | h) | h)
    exacts [⟨_, h⟩, ⟨_, h⟩, ⟨_, h⟩]
  · rintro ⟨k, h⟩
    cases k
    exacts [.inl (.inl h), .inl (.inr h), .inr h]

theorem FeedQuery.mem_table {q : FeedQuery} (hx : x ∈ q.table db k (marks k)) :
    x.kind = k ∧ x ∈ db.visible q.sessionID q.cursor marks := by
  have := first_subset hx
  simp only [mem_filter, Bool.and_eq_true, decide_eq_true_eq] at this
  obtain ⟨hr, rfl, hlt, hle⟩ := this
  exact ⟨rfl, mem_visible.2 ⟨hr, hlt, hle⟩⟩

variable {q : FeedQuery} (hd : Distinct sequence (db.rows q.sessionID))
include hd

theorem FeedQuery.distinct_merged : Distinct sequence (q.merged db marks) := by
  have hnd : ∀ k, (q.table db k (marks k)).Nodup := fun k =>
    ((hd.filter _).first _).distinct.of_map
  refine hd.of_subset ?_ fun x hx => ?_
  · refine nodup_append.2 ⟨nodup_append.2 ⟨hnd _, hnd _, ?_⟩, hnd _, ?_⟩
    · rintro a ha b hb rfl
      cases (mem_table ha).1.symm.trans (mem_table hb).1
    · rintro a ha b hb rfl
      rcases mem_append.1 ha with ha | ha
      · cases (mem_table ha).1.symm.trans (mem_table hb).1
      · cases (mem_table ha).1.symm.trans (mem_table hb).1
  · obtain ⟨k, hk⟩ := mem_merged.1 hx
    exact (mem_visible.1 (mem_table hk).2).1

theorem FeedQuery.first_merged (marks : FeedMarks) {n : Nat} (hn : n ≤ q.limit + 1) :
    first sequence n (q.merged db marks) =
      first sequence n (db.visible q.sessionID q.cursor marks) := by
  have hv := hd.filter fun r => q.cursor < r.sequence && r.sequence ≤ marks r.kind
  refine first_eq_of_low hv (distinct_merged hd) (fun x hx => ?_) fun x hx hr => ?_
  · obtain ⟨k, hk⟩ := mem_merged.1 hx
    exact (mem_table hk).2
  · refine mem_merged.2 ⟨x.kind, ?_⟩
    obtain ⟨hxr, hlt, hle⟩ := mem_visible.1 hx
    have hk := hd.filter fun r =>
      r.kind = x.kind && (q.cursor < r.sequence && r.sequence ≤ marks x.kind)
    refine (mem_first hk).2 ⟨by simp [hxr, hlt, hle], ?_⟩
    refine Nat.lt_of_le_of_lt (rank_le_of_subset hk (fun y hy => ?_) x) (hr.trans_le hn)
    simp only [mem_filter, Bool.and_eq_true, decide_eq_true_eq] at hy
    exact mem_visible.2 ⟨hy.1, hy.2.2.1, hy.2.1 ▸ hy.2.2.2⟩

theorem FeedQuery.page_merged {page : FeedPage}
    (hp : (FeedCall.readNotices q (q.table db .event (marks .event))
      (q.table db .agentRunEvent (marks .agentRunEvent))
      (q.table db .notice (marks .notice))).page db = some page) :
    page.items.map row =
        first sequence q.limit (db.visible q.sessionID q.cursor marks) ∧
      page.nextCursor = (((page.items.map row).getLast?).map sequence).getD
        q.cursor ∧
      (page.hasMore = true ↔ q.limit < (db.visible q.sessionID q.cursor marks).length) := by
  have hrow : ∀ x ∈ first sequence q.limit (q.merged db marks), x.row = x := by
    intro x hx
    obtain ⟨k, hk⟩ := mem_merged.1 (first_subset hx)
    exact row_of_mem (mem_visible.1 (mem_table hk).2).1
  have hlen := congrArg length (first_merged hd marks (Nat.le_refl _))
  simp only [length_first] at hlen
  simp only [FeedCall.page, mergeFeedCandidates_eq, Option.some.injEq] at hp
  subst hp
  simp only [attachFeedAgentRunParents, map_map, Function.comp_def, attachParent_row,
    getLast?_map, Option.map_map, attachParent_sequence, row_sequence, decide_eq_true_eq]
  rw [← merged]
  refine ⟨?_, trivial, by omega⟩
  rw [map_congr_left hrow, map_id', first_merged hd marks (Nat.le_succ _)]

end

section
variable {db db' : FeedTables} {marks : FeedMarks} {call : FeedCall}

/-- **A page holds the first `limit` rows after the cursor that the queries saw**, and says whether
they saw more. -/
theorem FeedCall.Saw.page (h : call.Saw db marks) (hc : db.Contiguous) {page : FeedPage}
    (hp : call.page db = some page) : page.items.map row = first sequence call.query.limit
        (db.visible call.query.sessionID call.query.cursor marks) ∧
      page.nextCursor = (((page.items.map row).getLast?).map sequence).getD
        call.query.cursor ∧
      (page.hasMore = true ↔
        call.query.limit < (db.visible call.query.sessionID call.query.cursor marks).length) := by
  cases call with
  | readSession | readEvents | readAgentRunEvents => cases hp
  | readNotices q e a n =>
    have he : e = q.table db .event (marks .event) := (h.reads .event e rfl).1
    have ha : a = q.table db .agentRunEvent (marks .agentRunEvent) :=
      (h.reads .agentRunEvent a rfl).1
    have hn : n = q.table db .notice (marks .notice) := (h.reads .notice n rfl).1
    subst he ha hn
    exact page_merged (hc.distinct _) hp

/-! ## When a page loses nothing -/

/-- The session's rows after `c` up to `n`, in feed order. -/
def FeedTables.between (db : FeedTables) (sid : UUID) (c n : Nat) : List FeedItem :=
  sort sequence ((db.rows sid).filter fun r => c < r.sequence && r.sequence ≤ n)

theorem FeedTables.mem_between {c n : Nat} :
    r ∈ db.between sid c n ↔ r ∈ db.rows sid ∧ c < r.sequence ∧ r.sequence ≤ n := by
  simp [between]

theorem FeedTables.Contiguous.ascending_between (hc : db.Contiguous) (sid : UUID) (c n : Nat) :
    Ascending sequence (db.between sid c n) :=
  ((hc.distinct sid).filter _).ascending

theorem FeedTables.Extends.between_eq (he : db.Extends db') (hc : db.Contiguous)
    (hc' : db'.Contiguous) {a n : Nat} (hn : n ≤ db.feedHead sid ∨ n ≤ a) :
    db'.between sid a n = db.between sid a n := by
  refine ext (hc'.ascending_between _ _ _) (hc.ascending_between _ _ _) fun r => ?_
  rw [mem_between, mem_between, ← he.mem_rows hc]
  refine ⟨fun h => ?_, fun h => ⟨h.1.1, h.2⟩⟩
  obtain ⟨hr, h1, h2⟩ := h
  exact ⟨⟨hr, by omega⟩, h1, h2⟩

@[simp] theorem FeedTables.between_self (db : FeedTables) (sid : UUID) (c : Nat) :
    db.between sid c c = [] := by
  refine eq_nil_iff_forall_not_mem.2 fun r hr => ?_
  obtain ⟨-, h1, h2⟩ := mem_between.1 hr
  omega

theorem FeedTables.Contiguous.between_append (hc : db.Contiguous) (sid : UUID)
    {a b c : Nat} (hab : a ≤ b) (hbc : b ≤ c) :
    db.between sid a b ++ db.between sid b c = db.between sid a c := by
  refine ext (pairwise_append.2 ⟨hc.ascending_between _ _ _,
    hc.ascending_between _ _ _, fun x hx y hy => ?_⟩) (hc.ascending_between _ _ _) fun x => ?_
  · have := (mem_between.1 hx).2
    have := (mem_between.1 hy).2
    omega
  · simp only [mem_append, mem_between]
    refine ⟨?_, ?_⟩
    · rintro (⟨hx, h1, h2⟩ | ⟨hx, h1, h2⟩)
      · exact ⟨hx, h1, by omega⟩
      · exact ⟨hx, by omega, h2⟩
    · rintro ⟨hx, h1, h2⟩
      rcases Nat.lt_or_ge b x.sequence with hlt | hge
      · exact .inr ⟨hx, hlt, h2⟩
      · exact .inl ⟨hx, h1, hge⟩

def FeedMarks.Late (marks : FeedMarks) (r : FeedItem) : Prop := marks r.kind < r.sequence

instance (marks : FeedMarks) (r : FeedItem) : Decidable (marks.Late r) :=
  inferInstanceAs (Decidable (_ < _))

/-- A row within reach of the page was committed after its table had been read, and one behind it
was committed before its own table was. -/
def FeedQuery.Overtaken (q : FeedQuery) (db : FeedTables) (marks : FeedMarks) : Prop :=
  ∃ r ∈ db.rows q.sessionID, ∃ t ∈ db.rows q.sessionID,
    marks.Late r ∧ ¬ marks.Late t ∧ q.cursor < r.sequence ∧ r.sequence < t.sequence ∧
      r.sequence ≤ q.cursor + q.limit

instance (q : FeedQuery) (db : FeedTables) (marks : FeedMarks) :
    Decidable (q.Overtaken db marks) :=
  inferInstanceAs (Decidable (∃ r ∈ _, ∃ t ∈ _, _))

theorem FeedCall.Saw.head_le_marks (h : call.Saw db marks) {page : FeedPage}
    (hp : call.page db = some page) (k : FeedKind) :
    call.query.head ≤ marks k ∧ marks k ≤ db.feedHead call.query.sessionID := by
  cases call with
  | readSession | readEvents | readAgentRunEvents => cases hp
  | readNotices => cases k <;> exact (h.reads _ _ rfl).2

variable (h : call.Saw db marks) (hc : db.Contiguous) {page : FeedPage}
  (hp : call.page db = some page)
include h hc hp

theorem FeedCall.Saw.ascending : Ascending sequence (page.items.map row) := by
  rw [(h.page hc hp).1]
  exact ((hc.distinct _).filter _).first _

theorem FeedCall.Saw.mem_items (hx : x ∈ page.items.map row) :
    x ∈ db.rows call.query.sessionID ∧ call.query.cursor < x.sequence ∧
      ¬ marks.Late x ∧ x.sequence ≤ page.nextCursor := by
  obtain ⟨hit, hnext, -⟩ := h.page hc hp
  have hx' := hx
  rw [hit] at hx'
  obtain ⟨hr, hlt, hle⟩ := mem_visible.1 (first_subset hx')
  refine ⟨hr, hlt, Nat.not_lt.2 hle, ?_⟩
  cases hl : (page.items.map row).getLast? with
  | none => rw [getLast?_eq_none_iff.1 hl] at hx; cases hx
  | some t =>
    rw [hnext, hl]
    exact (h.ascending hc hp).le_getLast hl hx

theorem FeedCall.Saw.nextCursor :
    (page.items = [] ∧ page.nextCursor = call.query.cursor) ∨
      ∃ t ∈ page.items.map row, t.sequence = page.nextCursor := by
  obtain ⟨-, hnext, -⟩ := h.page hc hp
  cases hl : (page.items.map row).getLast? with
  | none =>
    rw [hl] at hnext
    exact .inl ⟨map_eq_nil_iff.1 (getLast?_eq_none_iff.1 hl), hnext⟩
  | some t =>
    rw [hl] at hnext
    exact .inr ⟨t, mem_of_getLast? hl, hnext.symm⟩

theorem FeedCall.Saw.cursor_le : call.query.cursor ≤ page.nextCursor := by
  rcases h.nextCursor hc hp with ⟨-, hn⟩ | ⟨t, ht, hn⟩
  · exact hn.ge
  · have := (h.mem_items hc hp ht).2.1
    omega

theorem FeedCall.Saw.le_nextCursor (ht : t ∈ db.rows call.query.sessionID)
    (hlt : call.query.cursor < t.sequence) (htl : ¬ marks.Late t)
    (hroom : page.nextCursor < call.query.cursor + call.query.limit) :
    t.sequence ≤ page.nextCursor := by
  have hshort : (page.items.map row).length ≤
      page.nextCursor - call.query.cursor := by
    refine (h.ascending hc hp).distinct.length_le_range (a := call.query.cursor + 1)
      fun x hx => ?_
    obtain ⟨-, h1, -, h2⟩ := h.mem_items hc hp hx
    omega
  have hle := h.cursor_le hc hp
  have hmem : t ∈ page.items.map row := by
    rw [(h.page hc hp).1] at hshort ⊢
    rw [length_first] at hshort
    exact mem_first_of_le (by omega) (mem_visible.2 ⟨ht, hlt, Nat.not_lt.1 htl⟩)
  exact (h.mem_items hc hp hmem).2.2.2

theorem FeedCall.Saw.skips_iff :
    (∃ x ∈ db.rows call.query.sessionID, marks.Late x ∧ call.query.cursor < x.sequence ∧
      x.sequence ≤ page.nextCursor) ↔ call.query.Overtaken db marks := by
  obtain ⟨hit, -, -⟩ := h.page hc hp
  have hv := (hc.distinct call.query.sessionID).filter
    fun r => call.query.cursor < r.sequence && r.sequence ≤ marks r.kind
  refine ⟨?_, ?_⟩
  · rintro ⟨x, hx, hlate, hlt, hle⟩
    by_contra hno
    rcases h.nextCursor hc hp with ⟨-, hn⟩ | ⟨t, ht, hn⟩
    · omega
    · obtain ⟨htr, htc, htl, -⟩ := h.mem_items hc hp ht
      have hxt : x.sequence < t.sequence := by
        refine Nat.lt_of_le_of_ne (hn ▸ hle) fun heq => htl ?_
        rw [← (hc.distinct _).inj hx htr heq]; exact hlate
      -- the page is full below `x`: every row within reach of the page was seen
      rw [hit] at ht
      have hrank := ((mem_first hv).1 ht).2
      refine Nat.not_lt.2 (le_rank_of_range (a := call.query.cursor + 1)
        fun i h1 h2 => ?_) hrank
      have hreach : ¬ x.sequence ≤ call.query.cursor + call.query.limit := fun hle =>
        hno ⟨x, hx, t, htr, hlate, htl, hlt, hxt, hle⟩
      obtain ⟨y, hy, rfl⟩ : ∃ y ∈ db.rows call.query.sessionID, y.sequence = i :=
        hc.row (by omega) (by have := (hc.bounds hx).2; omega)
      refine ⟨y, mem_visible.2 ⟨hy, by omega, Nat.not_lt.1 fun hl => ?_⟩, rfl, by omega⟩
      exact hno ⟨y, hy, t, htr, hl, htl, by omega, by omega, by omega⟩
  · rintro ⟨r, hr, t, ht, hlate, htl, hlt, hrt, hreach⟩
    refine ⟨r, hr, hlate, hlt, Nat.le_of_not_lt fun hn => ?_⟩
    -- the page ends before `r`, so it has room for `t`
    have := h.le_nextCursor hc hp ht (by omega) htl (by omega)
    omega

/-- **A page is the rows from its cursor to the next, exactly if the call was not overtaken.** -/
theorem FeedCall.Saw.exact_iff :
    page.items.map row =
        db.between call.query.sessionID call.query.cursor page.nextCursor ↔
      ¬ call.query.Overtaken db marks := by
  rw [← h.skips_iff hc hp]
  obtain ⟨hit, -, -⟩ := h.page hc hp
  have hv := (hc.distinct call.query.sessionID).filter
    fun r => call.query.cursor < r.sequence && r.sequence ≤ marks r.kind
  refine ⟨?_, ?_⟩
  · rintro heq ⟨x, hx, hlate, hlt, hle⟩
    have : x ∈ page.items.map row := by
      rw [heq]; exact mem_between.2 ⟨hx, hlt, hle⟩
    exact (h.mem_items hc hp this).2.2.1 hlate
  · intro hno
    refine ext (h.ascending hc hp) (hc.ascending_between _ _ _) fun x => ?_
    rw [mem_between]
    refine ⟨?_, ?_⟩
    · intro hx
      obtain ⟨h1, h2, -, h3⟩ := h.mem_items hc hp hx
      exact ⟨h1, h2, h3⟩
    · rintro ⟨hx, hlt, hle⟩
      have hxv : x ∈ db.visible call.query.sessionID call.query.cursor marks :=
        mem_visible.2 ⟨hx, hlt, Nat.not_lt.1 fun hl => hno ⟨x, hx, hl, hlt, hle⟩⟩
      rcases h.nextCursor hc hp with ⟨-, hn⟩ | ⟨t, ht, hn⟩
      · omega
      · rw [hit] at ht ⊢
        exact (mem_first hv).2 ⟨hxv, Nat.lt_of_le_of_lt (rank_mono (by omega))
          ((mem_first hv).1 ht).2⟩

/-- **Progress.** A call that found rows beyond the cursor when it started moves the cursor: past
all of them, or by a full page. -/
theorem FeedCall.Saw.progress :
    min (call.query.cursor + call.query.limit) call.query.head ≤ page.nextCursor := by
  by_contra hno
  -- the row just beyond the next cursor was seen, and the page had room for it
  have hle := h.cursor_le hc hp
  obtain ⟨y, hy, hys⟩ : ∃ y ∈ db.rows call.query.sessionID, y.sequence = page.nextCursor + 1 :=
    hc.row (by omega) (by have := h.head; omega)
  have hnot : ¬ marks.Late y := by
    have := (h.head_le_marks hp y.kind).1
    unfold FeedMarks.Late
    omega
  have := h.le_nextCursor hc hp hy (by omega) hnot (by omega)
  omega

theorem FeedCall.Saw.head_le_nextCursor (hm : page.hasMore = false) :
    call.query.head ≤ page.nextCursor := by
  by_contra hlt
  have hcur := h.cursor_le hc hp
  obtain ⟨hit, -, hmore⟩ := h.page hc hp
  obtain ⟨y, hy, hys⟩ : ∃ y ∈ db.rows call.query.sessionID, y.sequence = call.query.head :=
    hc.row (by omega) h.head
  have hvis : y ∈ db.visible call.query.sessionID call.query.cursor marks :=
    mem_visible.2 ⟨hy, by omega, hys ▸ (h.head_le_marks hp y.kind).1⟩
  have hmem : y ∈ page.items.map row := by
    rw [hit]
    refine mem_first_of_le (Nat.not_lt.1 fun hlen => ?_) hvis
    rw [hmore.2 hlen] at hm
    cases hm
  have := (h.mem_items hc hp hmem).2.2.2
  omega

end

/-! ## A page of one state -/

def FeedTables.after (db : FeedTables) (sid : UUID) (cursor : Int) : List FeedItem :=
  (db.rows sid).filter fun r => cursor < r.sequence

section
variable {db : FeedTables} {cursor limit : Int} {page : FeedPage}

theorem listFeed_eq_ok (hn : ∀ r ∈ db.rows sid, r.sequence ≤ n) :
    listFeed db sid cursor limit = .ok page ↔
      (0 ≤ cursor ∧ 1 ≤ limit ∧ limit ≤ maximumFeedLimit) ∧ ∃ session,
        db.findSession sid = some session ∧ ∃ q : FeedQuery,
        q = ⟨sid, cursor.toNat, limit.toNat, session.feedSequence⟩ ∧
        (readNotices q (q.table db .event n) (q.table db .agentRunEvent n)
          (q.table db .notice n)).page db = some page := by
  unfold listFeed FeedCall.start normalizeFeedPage
  by_cases h1 : cursor < 0
  · simp [h1]
  by_cases h2 : limit < 1 ∨ limit > maximumFeedLimit
  · simp only [h1, h2, if_true, if_false, reduceCtorEq, false_iff]
    omega
  have hrange : 0 ≤ cursor ∧ 1 ≤ limit ∧ limit ≤ maximumFeedLimit := by omega
  simp only [h1, h2, if_false, hrange, true_and]
  cases hs : db.findSession sid with
  | none => simp
  | some session =>
    obtain ⟨he, ha, hno⟩ := FeedQuery.table_now
      ⟨sid, cursor.toNat, limit.toNat, session.feedSequence⟩ hn
    simp only [FeedCall.read, he, ha, hno, bind, Option.bind, FeedCall.page, Except.ok.injEq,
      Option.some.injEq, exists_eq_left, exists_eq_left']

end

/-- **One page is the next page.** With no commit between its queries and distinct sequences,
`ListFeed` answers every cursor and limit it accepts: with the `limit` rows of the smallest sequences
above the cursor, in ascending order, and it announces more exactly if it left out a row. -/
theorem listFeed_next_page (db : FeedTables) (sid : UUID) (cursor limit : Int)
    (hd : Distinct sequence (db.rows sid)) :
    ((∃ page, listFeed db sid cursor limit = .ok page) ↔ (0 ≤ cursor ∧ 1 ≤ limit ∧
      limit ≤ maximumFeedLimit) ∧ ∃ session, db.findSession sid = some session) ∧
    ∀ page, listFeed db sid cursor limit = .ok page →
      Ascending sequence page.items ∧
      (page.items.length : Int) = min limit (db.after sid cursor).length ∧
      (∀ it ∈ page.items, it.row ∈ db.after sid cursor) ∧
      (∀ r ∈ db.after sid cursor, r ∉ page.items.map row →
        ∀ it ∈ page.items, it.sequence < r.sequence) ∧
      (page.hasMore = true ↔ ∃ r ∈ db.after sid cursor, r ∉ page.items.map row) := by
  obtain ⟨n, hn⟩ : ∃ n, ∀ r ∈ db.rows sid, r.sequence ≤ n := by
    simpa using ((db.rows sid).map sequence).toFinset.exists_le
  refine ⟨⟨?_, ?_⟩, fun page h => ?_⟩
  · rintro ⟨page, h⟩
    obtain ⟨hrange, session, hs, -⟩ := (listFeed_eq_ok hn).1 h
    exact ⟨hrange, session, hs⟩
  · rintro ⟨hrange, session, hs⟩
    exact ⟨_, (listFeed_eq_ok hn).2 ⟨hrange, session, hs, _, rfl, rfl⟩⟩
  · obtain ⟨hrange, session, hs, q, hq, hp⟩ := (listFeed_eq_ok hn).1 h
    have hsid : q.sessionID = sid := hq ▸ rfl
    have hvis : db.visible q.sessionID q.cursor (fun _ => n) = db.after sid cursor := by
      rw [hsid]
      refine filter_congr fun r hr => ?_
      have : q.cursor < r.sequence ↔ cursor < r.sequence := by subst hq; dsimp only; omega
      simp [hn r hr, this]
    obtain ⟨hit, -, hmore⟩ := @page_merged _ (fun _ => n) _ (hsid ▸ hd) _ hp
    rw [hvis] at hit hmore
    have hl : Distinct sequence (db.after sid cursor) := hd.filter _
    have hlen : page.items.length = min q.limit (db.after sid cursor).length := by
      rw [← length_first, ← hit, length_map]
    have hrow : ∀ it ∈ page.items, it.row ∈ first sequence q.limit (db.after sid cursor) :=
      fun it h => hit ▸ mem_map_of_mem h
    refine ⟨?_, ?_, fun it h => first_subset (hrow it h), ?_, ?_⟩
    · have := hl.first q.limit
      rw [← hit, Ascending, pairwise_map] at this
      exact this
    · subst hq
      dsimp only at hlen
      omega
    · intro r hr hno it h
      have := lt_of_not_mem_first hl hr (hit ▸ hno) (hrow it h)
      exact this
    · rw [hmore, hit, exists_not_mem_first hl]

/-- Two of three rows above the cursor. -/
theorem listFeed_next_page_two : ∃ db : FeedTables,
    (listFeed db 1 0 2).map (fun page => (page.items.map (·.sequence), page.hasMore)) =
      .ok ([3, 5], true) ∧
    ∀ page, listFeed db 1 0 2 = .ok page → Ascending sequence page.items := by
  let db : FeedTables := ⟨[⟨1, 9⟩], [{ anEvent with feedSequence := 5 }], [],
    [{ aNotice with feedSequence := 9 }, { aNotice with feedSequence := 3 }], []⟩
  have hd : Distinct sequence (db.rows 1) := by
    show ([5, 9, 3] : List Nat).Nodup
    decide
  exact ⟨db, rfl, fun page h => ((listFeed_next_page db 1 0 2 hd).2 page h).1⟩

end Peen
