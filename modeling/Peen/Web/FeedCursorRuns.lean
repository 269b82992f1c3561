import Mathlib.Data.Int.Range
import Peen.Lib.Run
import Peen.Web.FeedCursor

/-!
# Runs of the feed cursor

A run interleaves live frames, in any order, repeated or lost, with the catch-ups of one cursor. The
page opens a cursor once, and a page that is read is the committed feed right after the cursor it
was fetched for.
-/

namespace Peen.Web

open Lts FeedCursor FeedCursor List

variable {δ : Type}

/-- The contract frames are validated against, and the options a page gives its cursor. -/
structure FeedCursorOptions (δ : Type) where
  validateServerEvent : ServerEvent δ → Bool
  resyncThreshold : Option Int := none

/-- A cursor with its history: where it was opened and the sequences it was handed. -/
structure World (δ : Type) where
  cursor : FeedCursor δ := {}
  opened : Option Int := none
  received : List Int := []

/-- What may happen to a cursor. A page is read before its response is handled. -/
inductive Call (δ : Type) where
  | accept (frame : IncomingFrame δ)
  | openFrom (fromSequence : Int)
  | catchUp
  /-- The server reads the page the catch-up waits for. -/
  | read (page : FeedPage δ)
  /-- The response of the page that was read arrives. -/
  | respond
  /-- `fetchPage` rejects. -/
  | reject
  /-- `startCatchUp` continues after its catch-up returned. -/
  | clear

def step (opts : FeedCursorOptions δ) (w : World δ) : Call δ → Option (World δ)
  | .accept frame =>
    some { w with cursor := (w.cursor.accept frame).1,
                  received := w.received ++ (sequenceOf frame).toList }
  | .openFrom fromSequence =>
    if w.cursor.primed then none
    else some { w with cursor := w.cursor.openFrom fromSequence, opened := some fromSequence }
  | .catchUp => some { w with cursor := w.cursor.catchUp }
  | .read page =>
    match w.cursor.catchingUp with
    | some (.fetching cursor) =>
      if page.Follows cursor then
        some { w with cursor := { w.cursor with catchingUp := some (.reading page) } }
      else none
    | _ => none
  | .respond =>
    match w.cursor.catchingUp with
    | some (.reading page) =>
      some { w with cursor := w.cursor.takePage opts.validateServerEvent
                      (opts.resyncThreshold.getD feedResyncThreshold) page }
    | _ => none
  | .reject =>
    match w.cursor.catchingUp with
    | some (.fetching _) => some { w with cursor := w.cursor.failCatchUp }
    | some (.reading _) => some { w with cursor := w.cursor.failCatchUp }
    | _ => none
  | .clear =>
    match w.cursor.catchingUp with
    | some (.returned outcome) => some { w with cursor := w.cursor.clear outcome }
    | _ => none

/-- What each call does, with what it needs. -/
inductive Takes (opts : FeedCursorOptions δ) (w : World δ) : Call δ → World δ → Prop where
  | accept (frame : IncomingFrame δ) :
      Takes opts w (.accept frame)
        { w with cursor := (w.cursor.accept frame).1,
                 received := w.received ++ (sequenceOf frame).toList }
  | openFrom (n : Int) : w.cursor.primed = false →
      Takes opts w (.openFrom n) { w with cursor := w.cursor.openFrom n, opened := some n }
  | catchUp : Takes opts w .catchUp { w with cursor := w.cursor.catchUp }
  | read {cursor : Int} (page : FeedPage δ) : w.cursor.catchingUp = some (.fetching cursor) →
      page.Follows cursor →
      Takes opts w (.read page)
        { w with cursor := { w.cursor with catchingUp := some (.reading page) } }
  | respond {page : FeedPage δ} : w.cursor.catchingUp = some (.reading page) →
      Takes opts w .respond
        { w with cursor := w.cursor.takePage opts.validateServerEvent
                   (opts.resyncThreshold.getD feedResyncThreshold) page }
  | reject {run : CatchUp δ} : w.cursor.catchingUp = some run →
      Takes opts w .reject { w with cursor := w.cursor.failCatchUp }
  | clear {outcome : Outcome} : w.cursor.catchingUp = some (.returned outcome) →
      Takes opts w .clear { w with cursor := w.cursor.clear outcome }

theorem takes_of_step (h : step opts w call = some w') : Takes opts w call w' := by
  cases call with
  | accept frame => cases h; exact .accept frame
  | openFrom n =>
    simp only [step] at h
    split at h
    · cases h
    · next hp => cases h; exact .openFrom n (Bool.eq_false_iff.2 hp)
  | catchUp => cases h; exact .catchUp
  | read page =>
    simp only [step] at h
    split at h
    · next cursor hrun =>
      split at h
      · next hpage => cases h; exact .read page hrun hpage
      · cases h
    · cases h
  | respond =>
    simp only [step] at h
    split at h
    · next page hrun => cases h; exact .respond hrun
    · cases h
  | reject =>
    simp only [step] at h
    split at h
    · next cursor hrun => cases h; exact .reject hrun
    · next page hrun => cases h; exact .reject hrun
    · cases h
  | clear =>
    simp only [step] at h
    split at h
    · next outcome hrun => cases h; exact .clear hrun
    · cases h

/-! ## Following the feed -/

section
variable {opts : FeedCursorOptions δ} {c c' : FeedCursor δ} {n : Int}

/-- What `accept` does: a frame without a sequence at most reaches the reducer, before the opening
every other frame is buffered, and then one that is not ahead is dropped, the next one is taken and
unblocks the buffer, and one further ahead is buffered for a catch-up. -/
theorem accept_cases (c : FeedCursor δ) (frame : IncomingFrame δ) :
    (sequenceOf frame = none ∧ (c.accept frame).1 = c.applyIfValid frame) ∨
    ∃ s, sequenceOf frame = some s ∧
      ((c.primed = false ∧ (c.accept frame).1 = { c with buffer := c.buffer ++ [frame] }) ∨
        (c.primed = true ∧
          ((s ≤ c.lastSequence ∧ (c.accept frame).1 = c) ∨
            (s = c.lastSequence + 1 ∧ (c.accept frame).1 =
              ((c.applyIfValid frame).moveOnto frame (c.lastSequence + 1)).drainBuffer) ∨
            (c.lastSequence + 1 < s ∧ (c.accept frame).1 =
              { c with buffer := c.buffer ++ [frame] }.startCatchUp)))) := by
  unfold accept
  cases hs : sequenceOf frame with
  | none => exact .inl ⟨rfl, rfl⟩
  | some s =>
    refine .inr ⟨s, rfl, ?_⟩
    cases hp : c.primed with
    | false => exact .inl ⟨rfl, rfl⟩
    | true =>
      refine .inr ⟨rfl, ?_⟩
      dsimp only
      by_cases hle : s ≤ c.lastSequence
      · rw [if_pos hle]
        exact .inl ⟨hle, rfl⟩
      · rw [if_neg hle]
        by_cases hnext : s = c.lastSequence + 1
        · rw [if_pos hnext, hnext]
          exact .inr (.inl ⟨rfl, rfl⟩)
        · rw [if_neg hnext]
          exact .inr (.inr ⟨by omega, rfl⟩)

/-- A catch-up works on a part of the feed the position has reached. -/
def Placed (c : FeedCursor δ) : Prop :=
  match c.catchingUp with
  | some (.fetching cursor) => cursor ≤ c.lastSequence
  | some (.reading page) => ∃ cursor ≤ c.lastSequence, page.Follows cursor
  | some (.returned _) => True
  | none => True

/-- A cursor nobody opened: it applied acknowledgements only. -/
structure Unopened (c : FeedCursor δ) : Prop where
  primed : c.primed = false
  catchingUp : c.catchingUp = none
  outcome : c.outcome = none
  inOrder : ∀ n, InOrder n c.log n

/-- The log is in order up to the position. -/
structure Following (n : Int) (c : FeedCursor δ) : Prop where
  primed : c.primed = true
  inOrder : InOrder n c.log c.lastSequence
  placed : Placed c

theorem inOrder_applyIfValid {last : Int} (h : InOrder n c.log last)
    (hs : sequenceOf frame = none) : InOrder n (c.applyIfValid frame).log last := by
  cases frame with
  | valid event => exact h.ack hs
  | invalid _ => exact h

theorem applyIfValid_frame (c : FeedCursor δ) (frame : IncomingFrame δ) :
    (c.applyIfValid frame).primed = c.primed ∧
    (c.applyIfValid frame).catchingUp = c.catchingUp ∧
    (c.applyIfValid frame).outcome = c.outcome ∧
    (c.applyIfValid frame).lastSequence = c.lastSequence ∧
    (c.applyIfValid frame).buffer = c.buffer := by
  cases frame with
  | valid | invalid => exact ⟨rfl, rfl, rfl, rfl, rfl⟩

theorem Placed.mono (h : Placed c) (hrun : c'.catchingUp = c.catchingUp)
    (hgrows : c.lastSequence ≤ c'.lastSequence) : Placed c' := by
  unfold Placed at h ⊢
  rw [hrun]
  match c.catchingUp, h with
  | none, _ => trivial
  | some (.returned _), _ => trivial
  | some (.fetching cursor), h => exact le_trans h hgrows
  | some (.reading page), ⟨cursor, hle, hp⟩ => exact ⟨cursor, hle.trans hgrows, hp⟩

theorem Placed.startCatchUp (h : Placed c) : Placed c.startCatchUp := by
  unfold FeedCursor.startCatchUp
  split
  · exact h
  · exact le_rfl

theorem startCatchUp_frame (c : FeedCursor δ) :
    c.startCatchUp.primed = c.primed ∧ c.startCatchUp.lastSequence = c.lastSequence ∧
      c.startCatchUp.log = c.log := by
  unfold startCatchUp
  split <;> exact ⟨rfl, rfl, rfl⟩

theorem Following.advance (h : Following n c) (hadv : Advances c c') : Following n c' where
  primed := hadv.primed.trans h.primed
  inOrder := hadv.inOrder n h.inOrder
  placed := h.placed.mono hadv.catchingUp hadv.grows

theorem Following.startCatchUp (h : Following n c) : Following n c.startCatchUp := by
  obtain ⟨hprimed, hlast, hlog⟩ := startCatchUp_frame c
  refine ⟨hprimed.trans h.primed, ?_, h.placed.startCatchUp⟩
  rw [hlast, hlog]
  exact h.inOrder

theorem advances_accept (hs : sequenceOf frame = some (c.lastSequence + 1)) :
    Advances c ((c.applyIfValid frame).moveOnto frame (c.lastSequence + 1)).drainBuffer :=
  (advances_take hs).trans (advances_drainBuffer _)

theorem Following.accept (h : Following n c) (frame : IncomingFrame δ) :
    Following n (c.accept frame).1 := by
  rcases accept_cases c frame with ⟨hs, he⟩ | ⟨s, hs, ⟨hp, -⟩ | ⟨-, hcase⟩⟩
  · rw [he]
    obtain ⟨hprimed, hrun, -, hlast, -⟩ := applyIfValid_frame c frame
    refine ⟨hprimed.trans h.primed, ?_, h.placed.mono hrun hlast.ge⟩
    rw [hlast]
    exact inOrder_applyIfValid h.inOrder hs
  · rw [h.primed] at hp
    cases hp
  · rcases hcase with ⟨-, he⟩ | ⟨hnext, he⟩ | ⟨-, he⟩
    · rw [he]
      exact h
    · rw [he]
      exact h.advance (advances_accept (hnext ▸ hs))
    · rw [he]
      exact (h.advance ((Advances.refl c).setBuffer c.buffer _)).startCatchUp

theorem Following.takePage (h : Following n c) (hrun : c.catchingUp = some (.reading page))
    (validate : ServerEvent δ → Bool) (threshold : Int) :
    Following n (c.takePage validate threshold page) := by
  have hpl := h.placed
  unfold Placed at hpl
  rw [hrun] at hpl
  obtain ⟨cursor, hle, hit, hnext⟩ := hpl
  obtain ⟨hadv, -, hlast⟩ := replay_spec validate page.items cursor c hit hle
  unfold FeedCursor.takePage
  split
  · exact ⟨h.primed, h.inOrder.resync, trivial⟩
  · have hrest := h.advance hadv
    split
    · refine ⟨hrest.primed, hrest.inOrder, ?_⟩
      show page.nextCursor ≤ (page.items.foldl (replayItem validate) c).lastSequence
      rw [hlast, hnext]
      exact le_max_right _ _
    · have hdrained := hrest.advance (advances_drainBuffer _)
      exact ⟨hdrained.primed, hdrained.inOrder, trivial⟩

theorem Following.failCatchUp (h : Following n c) : Following n c.failCatchUp :=
  ⟨h.primed, h.inOrder.catchUpError, trivial⟩

theorem Unopened.accept (h : Unopened c) (frame : IncomingFrame δ) :
    Unopened (c.accept frame).1 := by
  rcases accept_cases c frame with ⟨hs, he⟩ | ⟨s, hs, ⟨-, he⟩ | ⟨hp, -⟩⟩
  · rw [he]
    obtain ⟨hprimed, hrun, hout, -, -⟩ := applyIfValid_frame c frame
    exact ⟨hprimed.trans h.primed, hrun.trans h.catchingUp, hout.trans h.outcome,
      fun n => inOrder_applyIfValid (h.inOrder n) hs⟩
  · rw [he]
    exact ⟨h.primed, h.catchingUp, h.outcome, h.inOrder⟩
  · rw [h.primed] at hp
    cases hp

theorem Unopened.openFrom (h : Unopened c) (n : Int) : Following n (c.openFrom n) := by
  refine Following.startCatchUp ⟨rfl, h.inOrder n, ?_⟩
  rw [h.catchingUp]
  trivial

def Inv (w : World δ) : Prop :=
  match w.opened with
  | none => Unopened w.cursor
  | some n => Following n w.cursor

end

section
variable {w : World δ} {n : Int}

theorem Inv.cases (h : Inv w) : (w.opened = none ∧ Unopened w.cursor) ∨
    ∃ n, w.opened = some n ∧ Following n w.cursor := by
  unfold Inv at h
  cases ho : w.opened with
  | none =>
    rw [ho] at h
    exact .inl ⟨rfl, h⟩
  | some n =>
    rw [ho] at h
    exact .inr ⟨n, rfl, h⟩

theorem Inv.of_catchingUp (h : Inv w) (hrun : w.cursor.catchingUp = some run) :
    ∃ n, w.opened = some n ∧ Following n w.cursor := by
  refine h.cases.resolve_left fun hc => ?_
  rw [hc.2.catchingUp] at hrun
  cases hrun

theorem Inv.unopened (h : Inv w) (hp : w.cursor.primed = false) : Unopened w.cursor := by
  rcases h.cases with ⟨-, hc⟩ | ⟨n, -, hc⟩
  · exact hc
  · rw [hc.primed] at hp
    cases hp

theorem Inv.of_following (ho : w.opened = some n) (h : Following n c) :
    Inv ⟨c, w.opened, received⟩ := by
  rw [ho]
  exact h

theorem Inv.takes (h : Inv w) (ht : Takes opts w call w') : Inv w' := by
  cases ht with
  | accept frame =>
    rcases h.cases with ⟨ho, hc⟩ | ⟨n, ho, hc⟩
    · rw [ho]
      exact hc.accept frame
    · exact .of_following ho (hc.accept frame)
  | openFrom n hp => exact (h.unopened hp).openFrom n
  | catchUp =>
    unfold catchUp
    rcases h.cases with ⟨-, hc⟩ | ⟨n, ho, hc⟩
    · rw [if_pos (by rw [hc.primed]; rfl)]
      exact h
    · rw [if_neg (by rw [hc.primed]; decide)]
      exact .of_following ho hc.startCatchUp
  | read page hrun hpage =>
    obtain ⟨n, ho, hf⟩ := h.of_catchingUp hrun
    have hpl := hf.placed
    unfold Placed at hpl
    rw [hrun] at hpl
    exact .of_following ho ⟨hf.primed, hf.inOrder, _, hpl, hpage⟩
  | respond hrun =>
    obtain ⟨n, ho, hf⟩ := h.of_catchingUp hrun
    exact .of_following ho (hf.takePage hrun _ _)
  | reject hrun =>
    obtain ⟨n, ho, hf⟩ := h.of_catchingUp hrun
    exact .of_following ho hf.failCatchUp
  | clear hrun =>
    obtain ⟨n, ho, hf⟩ := h.of_catchingUp hrun
    exact .of_following ho ⟨hf.primed, hf.inOrder, trivial⟩

theorem inv_new : Inv ({} : World δ) := ⟨rfl, rfl, rfl, fun _ => .opened⟩

theorem always_inv (opts : FeedCursorOptions δ) (calls : List (Call δ)) :
    Always (step opts) Inv {} calls :=
  Always.of_step (fun _ _ _ h hs => h.takes (takes_of_step hs)) inv_new

def movesOf (log : List (Effect δ)) : List Int :=
  log.filterMap fun
    | .move _ sequence => some sequence
    | _ => none

theorem movesOf_inOrder {log : List (Effect δ)} {last : Int} (h : InOrder n log last) :
    ∃ count : Nat, last = n + count ∧
      movesOf log = (range count).map fun i : Nat => n + 1 + (i : Int) := by
  induction h with
  | opened => exact ⟨0, (Int.add_zero n).symm, rfl⟩
  | ack _ _ ih | resync _ ih | catchUpError _ ih =>
    obtain ⟨count, hlast, hmv⟩ := ih
    refine ⟨count, hlast, ?_⟩
    simpa only [movesOf, filterMap_append, filterMap_cons, filterMap_nil, append_nil] using hmv
  | valid _ _ ih | invalid _ _ ih =>
    obtain ⟨count, hlast, hmv⟩ := ih
    refine ⟨count + 1, by omega, ?_⟩
    rw [range_succ, map_append, ← hmv]
    simp only [movesOf, filterMap_append, filterMap_cons, filterMap_nil,
      append_nil, map_cons, map_nil, append_cancel_left_eq, hlast]
    congr 1
    omega

/-- **The feed is applied once and in order.** In every run, after `open(n)` the position moves
through `n + 1`, `n + 2` and so on to where it stands, each once, and the log is in order: what is
applied is the valid frame the position moves onto next, or carries no sequence. -/
theorem feed_applied_once_in_order (opts : FeedCursorOptions δ) (calls : List (Call δ))
    (w : World δ) (n : Int) (hrun : exec (step opts) {} calls = some w)
    (hopen : w.opened = some n) :
    InOrder n w.cursor.log w.cursor.lastSequence ∧
      ∃ count : Nat, w.cursor.lastSequence = n + count ∧
        movesOf w.cursor.log = (range count).map fun i : Nat => n + 1 + (i : Int) := by
  have h : Inv w := (always_inv opts calls).last hrun
  unfold Inv at h
  rw [hopen] at h
  exact ⟨h.inOrder, movesOf_inOrder h.inOrder⟩

def row (sequence : Int) : FeedFrame Unit :=
  { sequence, id := "", type := "notice.created", sessionId := "", requestId := none, data := (),
    createdAt := 0 }

def live (sequence : Int) : IncomingFrame Unit := .valid (feedFrameToEvent (row sequence))

def defaultOptions : FeedCursorOptions Unit := { validateServerEvent := fun _ => true }

/-- A frame arrives before the opening, and the first page fills what lies before it. -/
def openedLate : List (Call Unit) :=
  [.accept (live 3), .openFrom 0, .read ⟨[row 1, row 2], 2, false, 3⟩, .respond, .clear]

/-- The buffered frame is moved onto after the two rows of the page. -/
theorem feed_applied_openedLate :
    ∃ w, exec (step defaultOptions) {} openedLate = some w ∧ w.opened = some 0 ∧
      w.cursor.lastSequence = 3 ∧ InOrder 0 w.cursor.log w.cursor.lastSequence := by
  have hrun : (exec (step defaultOptions) {} openedLate).map (fun w =>
      (w.opened, w.cursor.lastSequence)) = some (some 0, 3) := by decide +kernel
  obtain ⟨w, hw, he⟩ := Option.map_eq_some_iff.1 hrun
  have hopen : w.opened = some 0 := congrArg Prod.fst he
  exact ⟨w, hw, hopen, congrArg Prod.snd he,
    (feed_applied_once_in_order defaultOptions openedLate w 0 hw hopen).1⟩

end

/-! ## Received frames -/

section
variable {c : FeedCursor δ} {received : List Int} {s : Int}

def Reaches (c : FeedCursor δ) (position s : Int) : Prop :=
  ∀ k, position < k → k ≤ s → ∃ frame ∈ c.buffer, sequenceOf frame = some k

/-- What becomes of the received frames. A catch-up that has not read its last page will read them;
from then on the page and the buffer lead to each of them; and a complete catch-up passed them. -/
def Covered (c : FeedCursor δ) (received : List Int) : Prop :=
  match c.catchingUp with
  | some (.fetching _) => True
  | some (.reading page) => page.hasMore = false →
      ∀ s ∈ received, Reaches c (max c.lastSequence page.nextCursor) s
  | some (.returned outcome) => outcome = .complete → ∀ s ∈ received, s ≤ c.lastSequence
  | none => c.outcome = some .complete → ∀ s ∈ received, s ≤ c.lastSequence

theorem Covered.advance (h : Covered c received) (hadv : Advances c c')
    (hbuf : ∀ frame ∈ c.buffer, ∀ k, sequenceOf frame = some k → c'.lastSequence < k →
      frame ∈ c'.buffer) : Covered c' received := by
  have hgrows := hadv.grows
  unfold Covered at h ⊢
  rw [hadv.catchingUp, hadv.outcome]
  match c.catchingUp, h with
  | some (.fetching _), _ => trivial
  | some (.reading page), h =>
    intro hlast s hs k hlt hle
    obtain ⟨frame, hf, hk⟩ := h hlast s hs k (by omega) hle
    exact ⟨frame, hbuf frame hf k hk (by omega), hk⟩
  | some (.returned outcome), h => exact fun ho s hs => (h ho s hs).trans hgrows
  | none, h => exact fun ho s hs => (h ho s hs).trans hgrows

theorem Covered.passed (h : Covered c received) (hle : s ≤ c.lastSequence) :
    Covered c (received ++ [s]) := by
  have hall : ∀ {P : Int → Prop}, (∀ t ∈ received, P t) → P s → ∀ t ∈ received ++ [s], P t := by
    intro P hr hs t ht
    rcases mem_append.1 ht with ht | ht
    · exact hr t ht
    · exact mem_singleton.1 ht ▸ hs
  unfold Covered at h ⊢
  match c.catchingUp, h with
  | some (.fetching _), _ => trivial
  | some (.reading page), h =>
    exact fun hlast => hall (h hlast) (fun k hlt hk => absurd hk (by omega))
  | some (.returned outcome), h => exact fun ho => hall (h ho) hle
  | none, h => exact fun ho => hall (h ho) hle

/-- A page read after a frame was received contains the feed up to that frame: the catch-up's last
page ends no earlier. -/
def Fresh (w : World δ) : Call δ → Prop
  | .read page => page.hasMore = false → ∀ s ∈ w.received, s ≤ page.nextCursor
  | _ => True

/-- A live frame arrives in time. Once the last page of the running catch-up has been read, that
page and the buffer hold everything up to the frame. -/
def InTime (w : World δ) : Call δ → Prop
  | .accept frame =>
    match w.cursor.catchingUp with
    | some (.reading page) => page.hasMore = false → ∀ s ∈ sequenceOf frame,
        ∀ k, max w.cursor.lastSequence page.nextCursor < k → k < s →
          ∃ buffered ∈ w.cursor.buffer, sequenceOf buffered = some k
    | some (.returned outcome) => outcome = .complete →
        ∀ s ∈ sequenceOf frame, s ≤ w.cursor.lastSequence + 1
    | some (.fetching _) => True
    | none => True
  | _ => True

theorem Covered.gap {w : World δ} (h : Covered w.cursor w.received) (hs : sequenceOf frame = some s)
    (hgap : w.cursor.lastSequence + 1 < s) (htime : InTime w (.accept frame)) :
    Covered { w.cursor with buffer := w.cursor.buffer ++ [frame] }.startCatchUp
      (w.received ++ [s]) := by
  unfold Covered at h ⊢
  unfold InTime at htime
  dsimp only at htime ⊢
  match hrun : w.cursor.catchingUp with
  | none => trivial
  | some (.fetching _) => trivial
  | some (.returned outcome) =>
    rw [hrun] at htime
    intro ho
    exact absurd (htime ho s hs) (by omega)
  | some (.reading page) =>
    rw [hrun] at h htime
    intro hlast t ht k hlt hle
    rcases mem_append.1 ht with ht | ht
    · obtain ⟨buffered, hb, hk⟩ := h hlast t ht k hlt hle
      exact ⟨buffered, mem_append_left _ hb, hk⟩
    · rw [mem_singleton.1 ht] at hle
      by_cases hks : k = s
      · exact ⟨frame, mem_concat_self, hks ▸ hs⟩
      · obtain ⟨buffered, hb, hk⟩ := htime hlast s hs k hlt (by omega)
        exact ⟨buffered, mem_append_left _ hb, hk⟩

theorem Covered.accept (hinv : Inv w) (h : Covered w.cursor w.received) (frame : IncomingFrame δ)
    (htime : InTime w (.accept frame)) :
    Covered (w.cursor.accept frame).1 (w.received ++ (sequenceOf frame).toList) := by
  rcases accept_cases w.cursor frame with ⟨hs, he⟩ | ⟨s, hs, ⟨hp, he⟩ | ⟨-, hcase⟩⟩
  · rw [he, hs, Option.toList_none, append_nil]
    obtain ⟨-, hrun, hout, hlast, hbuf⟩ := applyIfValid_frame w.cursor frame
    unfold Covered Reaches at h ⊢
    rw [hrun, hout, hlast, hbuf]
    exact h
  · rw [he]
    have hc := hinv.unopened hp
    rw [hc.catchingUp, hc.outcome]
    exact nofun
  · rw [hs, Option.toList_some]
    rcases hcase with ⟨hle, he⟩ | ⟨rfl, he⟩ | ⟨hgap, he⟩
    · rw [he]
      exact h.passed hle
    · rw [he]
      refine Covered.passed (h.advance (advances_accept hs) ?_) (advances_drainBuffer _).grows
      intro buffered hb k hk hlt
      exact (mem_buffer_drainBuffer _ hk).2 ⟨(buffer_take ..).symm ▸ hb, hlt⟩
    · rw [he]
      exact h.gap hs hgap htime

theorem Covered.startCatchUp (h : Covered c received) : Covered c.startCatchUp received := by
  unfold FeedCursor.startCatchUp
  split
  · exact h
  · trivial

theorem Covered.takePage (h : Covered c received) (hrun : c.catchingUp = some (.reading page))
    {cursor : Int} (hle : cursor ≤ c.lastSequence) (hpage : page.Follows cursor)
    (validate : ServerEvent δ → Bool) (threshold : Int) :
    Covered (c.takePage validate threshold page) received := by
  obtain ⟨hit, hnext⟩ := hpage
  obtain ⟨-, hbuf, hlast⟩ := replay_spec validate page.items cursor c hit hle
  unfold Covered at h
  rw [hrun] at h
  unfold FeedCursor.takePage
  split
  · exact nofun
  · generalize page.items.foldl (replayItem validate) c = replayed at hbuf hlast ⊢
    split
    · trivial
    · next hmore =>
      intro _ s hs
      show s ≤ replayed.drainBuffer.lastSequence
      by_contra hlt
      have hgrows := (advances_drainBuffer replayed).grows
      obtain ⟨frame, hf, hk⟩ := h (Bool.eq_false_iff.2 hmore) s hs
        (replayed.drainBuffer.lastSequence + 1) (by omega) (by omega)
      exact next_notMem_of_drainBuffer replayed (hbuf.symm ▸ hf) hk

theorem Covered.takes (hinv : Inv w) (h : Covered w.cursor w.received) (hfr : Fresh w call)
    (htime : InTime w call) (ht : Takes opts w call w') : Covered w'.cursor w'.received := by
  cases ht with
  | accept frame => exact Covered.accept hinv h frame htime
  | openFrom n hp =>
    unfold FeedCursor.openFrom FeedCursor.startCatchUp
    rw [(hinv.unopened hp).catchingUp]
    trivial
  | catchUp =>
    unfold catchUp
    split
    · exact h
    · exact h.startCatchUp
  | read page hrun hpage =>
    intro hlast s hs k hlt hle
    exact absurd (hfr hlast s hs) (by omega)
  | respond hrun =>
    obtain ⟨n, -, hf⟩ := hinv.of_catchingUp hrun
    have hpl := hf.placed
    unfold Placed at hpl
    rw [hrun] at hpl
    obtain ⟨cursor, hle, hpage⟩ := hpl
    exact h.takePage hrun hle hpage _ _
  | reject hrun => exact nofun
  | clear hrun =>
    unfold Covered at h
    rw [hrun] at h
    exact fun ho => h (Option.some.inj ho)

/-- A cursor at rest after a complete catch-up has passed every frame it received. -/
def Reached (w : World δ) : Prop :=
  w.cursor.primed = true → w.cursor.catchingUp = none → w.cursor.outcome = some .complete →
    ∀ s ∈ w.received, s ≤ w.cursor.lastSequence

/-- **No received frame is stranded when frames arrive in time.** In every run whose pages are fresh
and whose frames arrive in time, a primed cursor at rest after a complete catch-up has passed every
frame it received. -/
theorem received_frames_reached (opts : FeedCursorOptions δ) (calls : List (Call δ))
    (hcalls : Along (step opts) (fun w call => Fresh w call ∧ InTime w call) {} calls) :
    Always (step opts) Reached {} calls := by
  have hrun : Always (step opts) (fun w => Inv w ∧ Covered w.cursor w.received) {} calls := by
    refine always_of_along (fun w call w' h hc hs => ?_) ⟨inv_new, nofun⟩ hcalls
    exact ⟨h.1.takes (takes_of_step hs), Covered.takes h.1 h.2 hc.1 hc.2 (takes_of_step hs)⟩
  refine hrun.mono fun w h _ hrest => ?_
  have hcovered := h.2
  unfold Covered at hcovered
  rw [hrest] at hcovered
  exact hcovered

instance (w : World δ) : ∀ call, Decidable (Fresh w call)
  | .read page =>
    inferInstanceAs (Decidable (page.hasMore = false → ∀ s ∈ w.received, s ≤ page.nextCursor))
  | .accept _ | .openFrom _ | .catchUp | .respond | .reject | .clear => .isTrue trivial

instance (w : World δ) : Decidable (Reached w) := inferInstanceAs (Decidable (_ → _ → _ → _))

/-- The catch-up of the opening reads an empty page; before its response arrives, the frame of the
second row does, and the frame of the first is lost. -/
def gapAfterLastPage : List (Call Unit) :=
  [.openFrom 0, .read ⟨[], 0, false, 0⟩, .accept (live 2), .respond, .clear]

/-- The frame joins the catch-up, whose only page was read before: the cursor is at rest, and the
frame waits in its buffer. -/
theorem received_frame_stranded :
    Along (step defaultOptions) Fresh {} gapAfterLastPage ∧
    ((exec (step defaultOptions) {} gapAfterLastPage).map fun w =>
      (w.cursor.lastSequence, w.cursor.buffer, w.received)) = some (0, [live 2], [2]) ∧
    ¬ Always (step defaultOptions) Reached {} gapAfterLastPage := by
  refine ⟨by decide +kernel, by decide +kernel, by decide +kernel⟩

/-- Whether the buffer holds what lies between two sequences is decided by looking each up. -/
instance decidableHeld (buffer : List (IncomingFrame δ)) (position s : Int) :
    Decidable (∀ k, position < k → k < s → ∃ frame ∈ buffer, sequenceOf frame = some k) :=
  inferInstanceAs (Decidable (∀ k, position + 1 ≤ k → k < s →
    ∃ frame ∈ buffer, sequenceOf frame = some k))

instance decidableInTime (w : World δ) : ∀ call, Decidable (InTime w call)
  | .accept frame => by
    unfold InTime
    exact match w.cursor.catchingUp with
      | some (.reading _) => inferInstanceAs (Decidable (_ → ∀ s ∈ sequenceOf frame, _))
      | some (.returned _) => inferInstanceAs (Decidable (_ → ∀ s ∈ sequenceOf frame, _))
      | some (.fetching _) => .isTrue trivial
      | none => .isTrue trivial
  | .openFrom _ | .catchUp | .read _ | .respond | .reject | .clear => .isTrue trivial

/-- One frame leaves a gap before the page is read and one is next after it. -/
def gapBeforeLastPage : List (Call Unit) :=
  [.openFrom 0, .accept (live 2), .read ⟨[row 1, row 2], 2, false, 2⟩, .accept (live 3), .respond,
    .clear]

/-- The catch-up covers both. -/
theorem received_frames_reached_in_time :
    Along (step defaultOptions) (fun w call => Fresh w call ∧ InTime w call) {}
      gapBeforeLastPage ∧ Always (step defaultOptions) Reached {} gapBeforeLastPage := by
  have hcalls : Along (step defaultOptions) (fun w call => Fresh w call ∧ InTime w call) {}
      gapBeforeLastPage := by decide +kernel
  exact ⟨hcalls, received_frames_reached defaultOptions gapBeforeLastPage hcalls⟩

end

end Peen.Web
