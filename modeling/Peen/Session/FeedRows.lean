import Peen.Lib.Run
import Peen.Session.Feed

/-!
# The rows of a session's feed

`FeedTables.rows` is a session's feed as one list, whatever table a row is stored in.
-/

namespace Peen

open Keyed List Lts FeedTables FeedWrite FeedItem

/-- A session's feed rows, as items without the parents `ListFeed` attaches. -/
def FeedTables.rows (db : FeedTables) (sid : UUID) : List FeedItem :=
  (db.events.filter (·.sessionID == sid)).map Event.item ++
  (db.agentRunEvents.filter (·.sessionID == sid)).map AgentRunEvent.item ++
  (db.notices.filter (·.sessionID == sid)).map SessionNotice.item

/-- The head of a session's feed; zero for a session that does not exist. -/
def FeedTables.feedHead (db : FeedTables) (sid : UUID) : Nat :=
  ((db.findSession sid).map Session.feedSequence).getD 0

/-- **Feed sequences are allocated contiguously**: a session's rows carry the numbers from one to
its head, each exactly once. -/
structure FeedTables.Contiguous (db : FeedTables) : Prop where
  sessions : (db.sessions.map Session.id).Nodup
  sequences : ∀ sid, ((db.rows sid).map sequence).Perm (range' 1 (db.feedHead sid))

section
variable {db db' : FeedTables} {sid : UUID}

theorem FeedTables.Contiguous.distinct (h : db.Contiguous) (sid : UUID) :
    Distinct sequence (db.rows sid) :=
  (h.sequences sid).nodup_iff.2 nodup_range'

theorem FeedTables.Contiguous.bounds (h : db.Contiguous) (hr : r ∈ db.rows sid) :
    1 ≤ r.sequence ∧ r.sequence ≤ db.feedHead sid := by
  have := (h.sequences sid).mem_iff.1 (mem_map_of_mem hr)
  rw [mem_range'_1] at this
  omega

theorem FeedTables.Contiguous.row (h : db.Contiguous) {n : Nat} (h1 : 1 ≤ n)
    (h2 : n ≤ db.feedHead sid) : ∃ r ∈ db.rows sid, r.sequence = n := by
  have : n ∈ (db.rows sid).map sequence :=
    (h.sequences sid).mem_iff.2 (mem_range'_1.2 (by omega))
  obtain ⟨r, hr, rfl⟩ := mem_map.1 this
  exact ⟨r, hr, rfl⟩

/-! ## What a transaction does to the rows -/

/-- `db'` is `db` with rows added above the heads. -/
structure FeedTables.Extends (db db' : FeedTables) : Prop where
  head : ∀ sid, db.feedHead sid ≤ db'.feedHead sid
  rows : ∀ sid, ∃ new, (db'.rows sid).Perm (db.rows sid ++ new) ∧
    new.map sequence =
      range' (db.feedHead sid + 1) (db'.feedHead sid - db.feedHead sid)

theorem FeedTables.Extends.refl (db : FeedTables) : db.Extends db :=
  ⟨fun _ => Nat.le_refl _, fun _ => ⟨[], by simp, by simp⟩⟩

theorem FeedTables.Extends.trans (h : db.Extends db') (h' : db'.Extends db'') : db.Extends db'' := by
  refine ⟨fun sid => (h.head sid).trans (h'.head sid), fun sid => ?_⟩
  obtain ⟨new, hp, hs⟩ := h.rows sid
  obtain ⟨new', hp', hs'⟩ := h'.rows sid
  have h1 := h.head sid
  have h2 := h'.head sid
  refine ⟨new ++ new', (hp'.trans (hp.append_right new')).trans (by simp), ?_⟩
  rw [map_append, hs, hs', show db'.feedHead sid + 1 =
    db.feedHead sid + 1 + (db'.feedHead sid - db.feedHead sid) by omega, range'_append_1]
  congr 1
  omega

theorem FeedTables.Extends.mem_rows (h : db.Extends db') (hc : db.Contiguous) :
    (r ∈ db'.rows sid ∧ r.sequence ≤ db.feedHead sid) ↔ r ∈ db.rows sid := by
  obtain ⟨new, hp, hs⟩ := h.rows sid
  refine ⟨?_, ?_⟩
  · rintro ⟨hr, hle⟩
    rcases mem_append.1 (hp.mem_iff.1 hr) with hr | hr
    · exact hr
    · have := mem_map_of_mem (f := sequence) hr
      rw [hs, mem_range'_1] at this
      omega
  · intro hr
    exact ⟨hp.mem_iff.2 (mem_append_left _ hr), (hc.bounds hr).2⟩

theorem FeedTables.Extends.sequences (h : db.Extends db') (hc : db.Contiguous) :
    ((db'.rows sid).map sequence).Perm (range' 1 (db'.feedHead sid)) := by
  obtain ⟨new, hp, hs⟩ := h.rows sid
  have hle := h.head sid
  refine (hp.map _).trans ?_
  rw [map_append, hs]
  refine ((hc.sequences sid).append_right _).trans ?_
  rw [Nat.add_comm (db.feedHead sid) 1, range'_append_1]
  exact .of_eq (by congr 1; omega)

def FeedWrite.items (first : Nat) : FeedWrite → List FeedItem
  | .events s rows =>
    (rows.mapIdx fun i r => { r with sessionID := s, feedSequence := first + i }).map Event.item
  | .agentRunEvents s rows =>
    (rows.mapIdx fun i r => { r with sessionID := s, feedSequence := first + i }).map
      AgentRunEvent.item
  | .notice s row => [SessionNotice.item { row with sessionID := s, feedSequence := first }]
  | .agentRun _ => []

theorem FeedWrite.items_sequence (w : FeedWrite) (first : Nat) :
    (w.items first).map sequence = range' first w.count := by
  cases w with
  | events s rows | agentRunEvents s rows =>
    refine ext_getElem (by simp [items, count]) fun i h1 h2 => ?_
    simp [items, Event.item, AgentRunEvent.item]
  | notice s row | agentRun row => rfl

theorem filter_stamped {ρ : Type} (session : ρ → UUID) {l : List ρ} {s : UUID}
    (h : ∀ x ∈ l, session x = s) (sid : UUID) :
    l.filter (session · == sid) = if s == sid then l else [] := by
  split
  · next hs => exact filter_eq_self.2 fun x hx => by rw [h x hx, hs]
  · next hs => exact filter_eq_nil_iff.2 fun x hx => by rw [h x hx]; exact hs

theorem FeedWrite.insert_rows (w : FeedWrite) (tx : FeedTables) (first : Nat) (sid : UUID) :
    ((w.insert tx first).rows sid).Perm
      (tx.rows sid ++ if w.sessionID = sid then w.items first else []) := by
  have hif : ∀ l : List FeedItem, (if w.sessionID = sid then l else []) =
      if w.sessionID == sid then l else [] := by simp
  rw [hif]
  cases w with
  | events s rows =>
    have hst : ∀ x ∈ rows.mapIdx (fun i (r : Event) =>
        { r with sessionID := s, feedSequence := first + i }), x.sessionID = s := by
      intro x hx
      obtain ⟨i, _, rfl⟩ := mem_mapIdx.1 hx
      rfl
    simp only [insert, FeedTables.rows, filter_append, map_append,
      filter_stamped Event.sessionID hst sid, sessionID, items]
    by_cases hs : (s == sid) = true
    · simp only [hs, if_true, append_assoc]
      refine Perm.append_left _ (perm_append_comm.trans ?_)
      simp
    · simp [hs]
  | agentRunEvents s rows =>
    have hst : ∀ x ∈ rows.mapIdx (fun i (r : AgentRunEvent) =>
        { r with sessionID := s, feedSequence := first + i }), x.sessionID = s := by
      intro x hx
      obtain ⟨i, _, rfl⟩ := mem_mapIdx.1 hx
      rfl
    simp only [insert, FeedTables.rows, filter_append, map_append,
      filter_stamped AgentRunEvent.sessionID hst sid, sessionID, items]
    by_cases hs : (s == sid) = true
    · simp only [hs, if_true, append_assoc]
      exact Perm.append_left _ (Perm.append_left _ perm_append_comm)
    · simp [hs]
  | notice s row =>
    have hst : ∀ x ∈ [({ row with sessionID := s, feedSequence := first } : SessionNotice)],
        x.sessionID = s := by simp
    simp only [insert, rows, filter_append, map_append,
      filter_stamped SessionNotice.sessionID hst sid, sessionID, items]
    by_cases hs : (s == sid) = true
    · simp [hs]
    · simp [hs]
  | agentRun row => simp [insert, rows, items]

theorem FeedTables.addFeedSequence_feedHead (tx : FeedTables) (s : UUID) (n : Nat) (sid : UUID)
    (hs : (tx.findSession s).isSome) :
    (tx.addFeedSequence s n).feedHead sid = tx.feedHead sid + if s = sid then n else 0 := by
  have hfind : (tx.addFeedSequence s n).findSession sid = (tx.findSession sid).map fun r =>
      if r.id = s then { r with feedSequence := r.feedSequence + n } else r := by
    simp only [addFeedSequence, findSession, find?_map]
    congr 2
    funext r
    simp only [Function.comp_apply]
    split <;> rfl
  rw [feedHead, hfind, feedHead]
  cases hf : tx.findSession sid with
  | none =>
    have : s ≠ sid := by rintro rfl; rw [hf] at hs; cases hs
    simp [this]
  | some r =>
    have hid : r.id = sid := by simpa using find?_some hf
    by_cases h : s = sid
    · subst h; simp [hid]
    · simp [hid, h, Ne.symm h]

theorem allocateFeedSequences_ok {n first : Nat}
    (h : allocateFeedSequences (some c) tx s n = .ok (first, tx', c')) :
    (n = 0 ∧ tx' = tx ∧ c' = some c) ∨
    (0 < n ∧ (tx.findSession s).isSome ∧ tx' = tx.addFeedSequence s n ∧
      first = tx.feedHead s + 1 ∧ c' = some (c.record s first)) := by
  unfold allocateFeedSequences at h
  split at h
  · next hn => cases h; exact .inl ⟨hn, rfl, rfl⟩
  · next hn =>
    dsimp only at h
    cases hf : (tx.addFeedSequence s n).findSession s with
    | none => rw [hf] at h; cases h
    | some r =>
      rw [hf] at h
      cases h
      have hs : (tx.findSession s).isSome := by
        have : ((tx.addFeedSequence s n).findSession s).isSome := by rw [hf]; rfl
        simpa [findSession, addFeedSequence, find?_isSome, apply_ite Session.id] using this
      have hh := tx.addFeedSequence_feedHead s n s hs
      rw [feedHead, hf] at hh
      simp only [Option.map_some, Option.getD_some, if_true] at hh
      have hfst : r.feedSequence - n + 1 = tx.feedHead s + 1 := by omega
      exact .inr ⟨by omega, hs, rfl, hfst, rfl⟩

theorem FeedWrite.insert_feedHead (w : FeedWrite) (tx : FeedTables) (first : Nat) (sid : UUID) :
    (w.insert tx first).feedHead sid = tx.feedHead sid := by
  cases w <;> rfl

theorem FeedWrite.extends {w : FeedWrite} {first : Nat}
    (h : allocateFeedSequences (some c) tx w.sessionID w.count = .ok (first, tx', c')) :
    tx.Extends (w.insert tx' first) ∧
      (w.insert tx' first).sessions.map Session.id = tx.sessions.map Session.id := by
  have hsess : ∀ tx : FeedTables, (w.insert tx first).sessions = tx.sessions := by
    intro tx; cases w <;> rfl
  rcases allocateFeedSequences_ok h with ⟨hn, rfl, -⟩ | ⟨hn, hs, rfl, rfl, -⟩
  · refine ⟨⟨fun sid => (w.insert_feedHead _ _ sid).ge, fun sid => ⟨[], ?_, ?_⟩⟩, by rw [hsess]⟩
    · have hnil : w.items first = [] := by
        have := w.items_sequence first
        rw [hn] at this
        exact map_eq_nil_iff.1 this
      have := w.insert_rows tx' first sid
      rw [hnil] at this
      simpa using this
    · simp [insert_feedHead]
  · refine ⟨⟨fun sid => ?_, fun sid => ⟨_, w.insert_rows _ _ sid, ?_⟩⟩, ?_⟩
    · rw [insert_feedHead, tx.addFeedSequence_feedHead _ _ _ hs]; exact Nat.le_add_right _ _
    · rw [insert_feedHead, tx.addFeedSequence_feedHead _ _ _ hs]
      by_cases h : w.sessionID = sid
      · subst h; simp [w.items_sequence]
      · simp [h]
    · rw [hsess, addFeedSequence, map_map]
      refine map_congr_left fun r _ => ?_
      simp only [Function.comp_apply]
      split <;> rfl

theorem writeFeed_keeps {P : FeedTables → FeedCollector → Prop}
    (hstep : ∀ w tx c first tx' c', P tx c →
      allocateFeedSequences (some c) tx (FeedWrite.sessionID w) w.count = .ok (first, tx', c') →
      P (w.insert tx' first) (c'.getD []))
    (h : P tx c) (hw : writeFeed body tx c = .ok (tx', c')) : P tx' c' := by
  induction body generalizing tx c with
  | nil =>
    cases hw
    exact h
  | cons w ws ih =>
    rw [writeFeed] at hw
    cases ha : allocateFeedSequences (some c) tx w.sessionID w.count with
    | error e => rw [ha] at hw; cases hw
    | ok r =>
      rw [ha] at hw
      exact ih (hstep w tx c _ _ _ h ha) hw

/-- **A committed transaction only adds rows above the heads**, and keeps the tables contiguous. -/
theorem feedTransaction_extends (hc : db.Contiguous) (h : feedTransaction db body = .ok (db', c)) :
    db.Extends db' ∧ db'.Contiguous := by
  have hkept : db.Extends db' ∧ db'.sessions.map Session.id = db.sessions.map Session.id := by
    refine writeFeed_keeps (P := fun tx _ => db.Extends tx ∧ tx.sessions.map Session.id =
      db.sessions.map Session.id) (fun w tx c first tx' c' hkept ha => ?_) ⟨.refl _, rfl⟩ h
    have ⟨he, hi⟩ := FeedWrite.extends ha
    exact ⟨hkept.1.trans he, hi.trans hkept.2⟩
  obtain ⟨he, hi⟩ := hkept
  exact ⟨he, by rw [hi]; exact hc.sessions, fun _ => he.sequences hc⟩

/-! ## What a transaction signals -/

/-- What the collector holds halfway through a transaction that began at `db`: the first new
sequence of every session whose head moved. -/
structure FeedCollector.Covers (c : FeedCollector) (db tx : FeedTables) : Prop where
  head : ∀ sid, db.feedHead sid ≤ tx.feedHead sid
  first : ∀ p ∈ c, p.2 = db.feedHead p.1 + 1 ∧ db.feedHead p.1 < tx.feedHead p.1
  moved : ∀ sid, db.feedHead sid < tx.feedHead sid → ∃ p ∈ c, p.1 = sid

theorem FeedCollector.Covers.write {c : FeedCollector} {w : FeedWrite} {first : Nat}
    (h : c.Covers db tx)
    (ha : allocateFeedSequences (some c) tx w.sessionID w.count = .ok (first, tx', c')) :
    (c'.getD []).Covers db (w.insert tx' first) := by
  have hins := w.insert_feedHead tx' first
  rcases allocateFeedSequences_ok ha with ⟨-, rfl, rfl⟩ | ⟨hn, hs, rfl, rfl, rfl⟩
  · exact ⟨fun sid => (hins sid).symm ▸ h.head sid, fun p hp => hins p.1 ▸ h.first p hp,
      fun sid => hins sid ▸ h.moved sid⟩
  · have hhead : ∀ sid, (w.insert (tx.addFeedSequence w.sessionID w.count)
        (tx.feedHead w.sessionID + 1)).feedHead sid =
        tx.feedHead sid + if w.sessionID = sid then w.count else 0 := fun sid => by
      rw [hins, tx.addFeedSequence_feedHead _ _ _ hs]
    have hkeep : ∀ p ∈ c, p.2 = db.feedHead p.1 + 1 ∧ db.feedHead p.1 <
        tx.feedHead p.1 + if w.sessionID = p.1 then w.count else 0 := fun p hp =>
      ⟨(h.first p hp).1, Nat.lt_of_lt_of_le (h.first p hp).2 (Nat.le_add_right _ _)⟩
    simp only [Option.getD_some, FeedCollector.record]
    by_cases hany : c.any (·.1 == w.sessionID) = true
    · rw [if_pos hany]
      obtain ⟨p, hp, hps⟩ := any_eq_true.1 hany
      refine ⟨fun sid => ?_, fun p hp => hhead p.1 ▸ hkeep p hp, fun sid hlt => ?_⟩
      · rw [hhead]; exact (h.head sid).trans (Nat.le_add_right _ _)
      · by_cases hsid : w.sessionID = sid
        · exact ⟨p, hp, by rw [← hsid]; exact eq_of_beq hps⟩
        · rw [hhead, if_neg hsid] at hlt
          exact h.moved sid hlt
    · rw [if_neg hany]
      -- no entry for the session yet, so its head has not moved before this write
      have hsame : tx.feedHead w.sessionID = db.feedHead w.sessionID := by
        refine Nat.le_antisymm (Nat.not_lt.1 fun hlt => ?_) (h.head _)
        obtain ⟨p, hp, hps⟩ := h.moved _ hlt
        exact hany (any_eq_true.2 ⟨p, hp, by rw [hps]; exact beq_self_eq_true _⟩)
      refine ⟨fun sid => ?_, fun p hp => ?_, fun sid hlt => ?_⟩
      · rw [hhead]; exact (h.head sid).trans (Nat.le_add_right _ _)
      · rw [hhead]
        rcases mem_snoc.1 hp with hp | hp
        · exact hkeep p hp
        · rw [hp]
          rw [if_pos rfl]
          dsimp only
          exact ⟨by rw [hsame], by omega⟩
      · by_cases hsid : w.sessionID = sid
        · exact ⟨_, mem_append_right _ (mem_singleton.2 rfl), hsid⟩
        · rw [hhead, if_neg hsid] at hlt
          obtain ⟨p, hp, hps⟩ := h.moved sid hlt
          exact ⟨p, mem_append_left _ hp, hps⟩

/-- **A commit signals every session whose feed gained rows, with its first new sequence.** -/
theorem feedTransaction_covers (h : feedTransaction db body = .ok (db', c)) : c.Covers db db' :=
  writeFeed_keeps (P := fun tx c => c.Covers db tx) (fun _ _ _ _ _ _ hc ha => hc.write ha)
    ⟨fun _ => Nat.le_refl _, fun _ hp => (by cases hp),
      fun _ hlt => absurd hlt (Nat.lt_irrefl _)⟩ h

end

/-! ## Runs of transactions -/

/-- A transaction and what it signals; one that fails changes nothing. -/
def FeedTables.transact (db : FeedTables) (body : List FeedWrite) : FeedTables × FeedCollector :=
  match feedTransaction db body with
  | .ok committed => committed
  | .error _ => (db, [])

/-- Feeds after some transactions: contiguous, with the rows they had, and the next transaction
signals just the feeds it adds to. -/
structure FeedTables.Grown (db db' : FeedTables) : Prop where
  contiguous : db'.Contiguous
  rows : db.Extends db'
  signals : ∀ body, (db'.transact body).2.Covers db' (db'.transact body).1

section
variable {db db' : FeedTables}

theorem FeedTables.Extends.grown (h : db.Extends db') (hc : db'.Contiguous) : db.Grown db' := by
  refine ⟨hc, h, fun body => ?_⟩
  unfold transact
  split
  next ht => exact feedTransaction_covers ht
  next => exact ⟨fun _ => Nat.le_refl _, nofun, fun _ hlt => absurd hlt (Nat.lt_irrefl _)⟩

/-- **Feeds grow contiguously**, whatever transactions are made and whichever fail. -/
theorem feeds_grow (hc : db.Contiguous) (bodies : List (List FeedWrite)) :
    Always (fun db body => some (db.transact body).1) db.Grown db bodies := by
  refine .of_step (fun tx body tx' h hs => ?_) ((Extends.refl db).grown hc)
  cases hs
  unfold transact
  split
  next ht =>
    obtain ⟨hext, hc'⟩ := feedTransaction_extends h.contiguous ht
    exact (h.rows.trans hext).grown hc'
  next => exact h

end

/-! ## A small store -/

def FeedTables.oneSession : FeedTables :=
  { sessions := [⟨1, 0⟩], events := [], agentRunEvents := [], notices := [], agentRuns := [] }

theorem FeedTables.oneSession_contiguous : oneSession.Contiguous := by
  refine ⟨by decide, fun sid => ?_⟩
  have hrows : oneSession.rows sid = [] := rfl
  have hhead : oneSession.feedHead sid = 0 := by
    simp only [feedHead, findSession, oneSession]
    rcases Nat.decEq 1 sid with h | h
    · simp [h]
    · subst h; rfl
  rw [hrows, hhead]
  exact Perm.refl []

/-- An event row of session 1, before its sequence is allocated. -/
def anEvent : Event :=
  { id := 10, sessionID := 1, turnID := 5, feedSequence := 0, requestID := 7,
    eventType := "userMessage.created", payloadJSON := "\x7b\x7d", createdAt := 0 }

/-- A notice row of session 1, before its sequence is allocated. -/
def aNotice : SessionNotice :=
  { id := 11, sessionID := 1, feedSequence := 0, type := "worker", source := "system",
    summary := "ready", dataJSON := "\x7b\x7d", createdAt := 0 }

/-- An event, and one of a missing session. -/
theorem feeds_grow_oneSession : oneSession.Contiguous ∧
    Always (fun db body => some (db.transact body).1) oneSession.Grown oneSession
      [[.events 1 [anEvent]], [.events 2 [anEvent]]] :=
  ⟨oneSession_contiguous, feeds_grow oneSession_contiguous _⟩

end Peen
