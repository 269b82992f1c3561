import Peen.Session.FeedPage
import Peen.Lib.Run

/-!
# Following a session's feed

A reader that starts at a cursor and calls `ListFeed` again and again with the cursor the last page
returned, while transactions commit at any moment, also between two queries of a call.
-/

namespace Peen

open Keyed Lts

/-- A reader of one session's feed and the store it reads. `marks` is history: the heads the
queries of the current call ran against. -/
structure FeedReader where
  db : FeedTables
  sessionID : UUID
  start : Nat
  cursor : Nat
  received : List FeedItem
  call : Option FeedCall
  marks : FeedMarks

def FeedReader.at (db : FeedTables) (sessionID : UUID) (cursor : Nat) : FeedReader :=
  { db, sessionID, start := cursor, cursor, received := [], call := none, marks := fun _ => 0 }

/-- What can happen: a transaction commits, the reader starts a call, the call makes its next
query, the call returns its page, or the call fails and returns an error. -/
inductive FeedReaderAction where
  | commit (body : List FeedWrite)
  | call (limit : Int)
  | query
  | finish
  | fail

/-- One action. A transaction that fails is rolled back; a call whose arguments are refused or that
fails leaves the cursor where it was. -/
def FeedReader.step (s : FeedReader) : FeedReaderAction → Option FeedReader
  | .commit body =>
    match feedTransaction s.db body with
    | .error _ => some s
    | .ok (db, _) => some { s with db }
  | .call limit =>
    match s.call with
    | some _ => none
    | none =>
      match FeedCall.start s.db s.sessionID s.cursor limit with
      | .error _ => some s
      | .ok call => some { s with call := some call }
  | .query => do
    let call ← s.call
    let call' ← call.read s.db
    some { s with call := some call', marks := call.mark s.db s.marks }
  | .finish => do
    let call ← s.call
    let page ← call.page s.db
    some { s with call := none, cursor := page.nextCursor, received := s.received ++ page.items }
  | .fail =>
    match s.call with
    | none => none
    | some _ => some { s with call := none }

open FeedReader

/-- What the reader received is the rows from its start to its cursor, each once and in order. -/
def FeedReader.Lossless (s : FeedReader) : Prop :=
  s.received.map FeedItem.row = s.db.between s.sessionID s.start s.cursor

instance : DecidablePred Lossless := fun _ => inferInstanceAs (Decidable (_ = _))

def FeedReader.NotOvertaken (s : FeedReader) (a : FeedReaderAction) : Prop :=
  a = .finish → ∀ call, s.call = some call → ¬ call.query.Overtaken s.db s.marks

/-- A call that returns moves the cursor past every row there was when it started, or by a full
page of rows. -/
def FeedReader.Progresses (s : FeedReader) (a : FeedReaderAction) : Prop :=
  a = .finish → ∀ call, s.call = some call → ∀ s', s.step a = some s' →
    min (s.cursor + call.query.limit) call.query.head ≤ s'.cursor

/-- The call under way saw states of the store. -/
structure FeedReader.Inv (s : FeedReader) : Prop where
  contiguous : s.db.Contiguous
  cursor : s.start ≤ s.cursor
  head : s.cursor = s.start ∨ s.cursor ≤ s.db.feedHead s.sessionID
  call : ∀ call, s.call = some call →
    call.Saw s.db s.marks ∧ call.query.sessionID = s.sessionID ∧ call.query.cursor = s.cursor

section
variable {s : FeedReader}

namespace FeedReader

theorem inv_at {db : FeedTables} (hc : db.Contiguous) (sid : UUID) (c : Nat) :
    (FeedReader.at db sid c).Inv :=
  ⟨hc, Nat.le_refl _, .inl rfl, fun _ h => by cases h⟩

theorem lossless_at (db : FeedTables) (sid : UUID) (c : Nat) :
    (FeedReader.at db sid c).Lossless := by
  exact (FeedTables.between_self db sid c).symm

/-! ## Commits -/

theorem Inv.commit (h : s.Inv) (hs : s.step (.commit body) = some s') :
    s'.Inv ∧ (s'.Lossless ↔ s.Lossless) := by
  simp only [step] at hs
  cases ht : feedTransaction s.db body with
  | error e =>
    rw [ht] at hs
    cases hs
    exact ⟨h, Iff.rfl⟩
  | ok r =>
    rw [ht] at hs
    cases hs
    obtain ⟨he, hc⟩ := feedTransaction_extends h.contiguous ht
    refine ⟨⟨hc, h.cursor, ?_, fun call hcall => ?_⟩, ?_⟩
    · exact h.head.imp id fun hle => hle.trans (he.head _)
    · obtain ⟨hsaw, hq⟩ := h.call call hcall
      exact ⟨hsaw.extend h.contiguous hc he, hq⟩
    · simp only [Lossless, he.between_eq h.contiguous hc (h.head.elim (fun h => .inr h.le) .inl)]

/-! ## The steps of a call -/

theorem Inv.callStep (h : s.Inv) (ha : a = .query ∨ a = .fail ∨ ∃ l, a = .call l)
    (hs : s.step a = some s') : s'.Inv ∧ (s'.Lossless ↔ s.Lossless) := by
  rcases ha with rfl | rfl | ⟨l, rfl⟩
  · simp only [step, Option.bind_eq_bind, Option.bind_eq_some_iff] at hs
    obtain ⟨call, hcall, call', hread, hs⟩ := hs
    cases hs
    obtain ⟨hsaw, hsid, hcur⟩ := h.call call hcall
    obtain ⟨hsaw', hq⟩ := hsaw.read h.contiguous hread
    exact ⟨⟨h.contiguous, h.cursor, h.head, fun _ hc => by
      cases hc; exact ⟨hsaw', hq ▸ hsid, hq ▸ hcur⟩⟩, Iff.rfl⟩
  · simp only [step] at hs
    split at hs
    · cases hs
    · cases hs
      exact ⟨⟨h.contiguous, h.cursor, h.head, fun _ hc => by cases hc⟩, Iff.rfl⟩
  · simp only [step] at hs
    split at hs
    · cases hs
    · split at hs
      · cases hs; exact ⟨h, Iff.rfl⟩
      · next call hsta =>
        cases hs
        obtain ⟨hsaw, hsid, hcur, -⟩ := FeedCall.saw_start s.marks hsta
        exact ⟨⟨h.contiguous, h.cursor, h.head, fun _ hc => by
          cases hc; exact ⟨hsaw, hsid, by exact_mod_cast hcur⟩⟩, Iff.rfl⟩

/-- **A returned page keeps the reader lossless exactly if its call was not overtaken.** -/
theorem Inv.finish (h : s.Inv) (hs : s.step .finish = some s') :
    s'.Inv ∧ s.Progresses .finish ∧
      (s.Lossless → (s'.Lossless ↔ s.NotOvertaken .finish)) := by
  have hs0 := hs
  simp only [step, Option.bind_eq_bind, Option.bind_eq_some_iff] at hs
  obtain ⟨call, hcall, page, hpage, hs⟩ := hs
  cases hs
  obtain ⟨hsaw, hsid, hcur⟩ := h.call call hcall
  have hmono : s.cursor ≤ page.nextCursor := hcur ▸ hsaw.cursor_le h.contiguous hpage
  refine ⟨⟨h.contiguous, h.cursor.trans hmono, ?_, fun _ hc => by cases hc⟩, ?_, ?_⟩
  · rcases hsaw.nextCursor h.contiguous hpage with ⟨-, hn⟩ | ⟨t, ht, hn⟩
    · have := h.head
      dsimp only
      omega
    · have := h.contiguous.bounds (hsaw.mem_items h.contiguous hpage ht).1
      rw [hsid] at this
      exact .inr (hn ▸ this.2)
  · intro _ call' hcall' s'' hs''
    rw [hcall] at hcall'
    cases hcall'
    rw [hs0] at hs''
    cases hs''
    have := hsaw.progress h.contiguous hpage
    rw [hcur] at this
    exact this
  · intro hl
    have hexact := hsaw.exact_iff h.contiguous hpage
    rw [hsid, hcur] at hexact
    have hnot : s.NotOvertaken .finish ↔ ¬ call.query.Overtaken s.db s.marks := by
      refine ⟨?_, ?_⟩
      · intro hn; exact hn rfl call hcall
      · intro hn _ call' hcall'
        rw [hcall] at hcall'
        cases hcall'
        exact hn
    rw [hnot, ← hexact]
    simp only [Lossless, List.map_append] at hl ⊢
    rw [hl, ← h.contiguous.between_append s.sessionID h.cursor hmono, List.append_cancel_left_eq]

/-! ## Runs -/

theorem Inv.step (h : s.Inv) (hs : s.step a = some s') :
    s'.Inv ∧ s.Progresses a ∧ (s.Lossless → (s'.Lossless ↔ s.NotOvertaken a)) := by
  have hoth : a ≠ .finish → s'.Inv ∧ (s'.Lossless ↔ s.Lossless) →
      s'.Inv ∧ s.Progresses a ∧ (s.Lossless → (s'.Lossless ↔ s.NotOvertaken a)) :=
    fun hne ⟨hi, hl⟩ => ⟨hi, fun h => absurd h hne, fun hs =>
      ⟨fun _ h => absurd h hne, fun _ => hl.2 hs⟩⟩
  cases a with
  | commit body => exact hoth (by simp) (h.commit hs)
  | call limit => exact hoth (by simp) (h.callStep (.inr (.inr ⟨_, rfl⟩)) hs)
  | query => exact hoth (by simp) (h.callStep (.inl rfl) hs)
  | finish => exact h.finish hs
  | fail => exact hoth (by simp) (h.callStep (.inr (.inl rfl)) hs)

end FeedReader

end

/-- **A reader of the feed loses a row exactly if one of its calls is overtaken.** Over every
interleaving of commits with the queries of its calls: what it received is, at every moment, the
rows from its start to its cursor, each once and in ascending order, if and only if no call that
returned was overtaken. In any case a call moves the cursor past every row there was when it
started or by a full page, so a row is never waited for forever. -/
theorem feedReader_lossless_iff (db : FeedTables) (hc : db.Contiguous) (sid : UUID) (c : Nat)
    (as : List FeedReaderAction) :
    (Always step FeedReader.Lossless (.at db sid c) as ↔
      Along step FeedReader.NotOvertaken (.at db sid c) as) ∧
    Along step FeedReader.Progresses (.at db sid c) as := by
  have hinv := FeedReader.inv_at hc sid c
  have hI : ∀ s a s', s.Inv → step s a = some s' → s'.Inv :=
    fun s a s' hi hs => (hi.step hs).1
  exact ⟨always_iff_along hI (fun s a s' hi hp hs => (hi.step hs).2.2 hp) hinv
    (FeedReader.lossless_at db sid c), along_of_inv hI (fun s a s' hi hs => (hi.step hs).2.1) hinv⟩

/-- A call of a reader with the two commits before it or between its queries. -/
def overtakenCall : List FeedReaderAction :=
  [.call 200, .query, .commit [.events 1 [anEvent]], .commit [.notice 1 aNotice], .query, .query,
    .finish]

/-- An event committed after the events were read and a notice committed before the notices were:
the page holds the notice only, and its next cursor is behind the event. -/
theorem feedReader_skips_event :
    FeedTables.oneSession.Contiguous ∧
    ((exec step (.at .oneSession 1 0) overtakenCall).map fun s =>
      (s.cursor, s.received.map FeedItem.sequence)) = some (2, [2]) ∧
    ¬ Always step Lossless (.at .oneSession 1 0) overtakenCall :=
  ⟨FeedTables.oneSession_contiguous, by decide +kernel, by decide +kernel⟩

/-- The two commits before the call: nothing is skipped. -/
theorem feedReader_lossless_iff_quiet :
    FeedTables.oneSession.Contiguous ∧
    Along step NotOvertaken (.at .oneSession 1 0)
      [.commit [.events 1 [anEvent]], .commit [.notice 1 aNotice], .call 200, .query, .query,
        .query, .finish] :=
  ⟨FeedTables.oneSession_contiguous,
    (feedReader_lossless_iff _ FeedTables.oneSession_contiguous 1 0 _).1.1 (by decide +kernel)⟩

end Peen
