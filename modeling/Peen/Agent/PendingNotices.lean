import Mathlib.Data.List.Nodup
import Peen.Base
import Peen.Lib.Run

/-!
# Reading the pending notices of a session

`pendingSessionNotices` reads the pending notices page by page, each page from the offset of what it
has read already.
-/

namespace Peen.PendingNotices

open List Lts

def defaultPageLimit : Nat := 50

/-- Where the reader stands between two queries. -/
inductive Phase
  | listing | probing | returned
deriving DecidableEq

/-- The pending notices of a session by their sequences, and a reader of them: the offset of its next
query and the notices it has. As history, `kept` are the notices that were pending when the first
page was read and are pending since. -/
structure World where
  next : Nat := 1
  pending : List Nat := []
  phase : Phase := .listing
  offset : Nat := 0
  notices : List Nat := []
  kept : List Nat := []

/-- The transactions of the store, and the two queries of `listReadPage`. -/
inductive Action
  | createSessionNotice
  | drainSessionNotices
  | deliverOpeningNotices (noticeIDs : List Nat)
  | list
  | probe

/-- `deliverPendingNotices`. -/
def World.deliver (w : World) (ids : List Nat) : World :=
  { w with pending := w.pending.filter (· ∉ ids), kept := w.kept.filter (· ∉ ids) }

/-- The first query of a page. A page that is not full is the last. Offsets near `MaxInt`, for which
there is no probe, are not reached. -/
def World.list (w : World) : World :=
  let items := (w.pending.drop w.offset).take defaultPageLimit
  { w with
    phase := if items.length < defaultPageLimit then .returned else .probing
    offset := w.offset + defaultPageLimit
    notices := w.notices ++ items
    kept := if w.offset = 0 then w.pending else w.kept }

def step (w : World) : Action → Option World
  | .createSessionNotice => some { w with next := w.next + 1, pending := w.pending ++ [w.next] }
  | .drainSessionNotices => some (w.deliver w.pending)
  | .deliverOpeningNotices noticeIDs =>
    if noticeIDs.Nodup ∧ ∀ id ∈ noticeIDs, id ∈ w.pending then some (w.deliver noticeIDs) else none
  | .list => if w.phase = .listing then some w.list else none
  | .probe =>
    if w.phase = .probing then
      let probe := (w.pending.drop w.offset).take 1
      some { w with phase := if probe.length > 0 then .listing else .returned }
    else none

/-- A turn opening that delivers notices while they are read takes none of those that were read, or
leaves none that is waited for unread. -/
def Undisturbed (w : World) : Action → Prop
  | .deliverOpeningNotices noticeIDs =>
    (∀ id ∈ noticeIDs, id ∉ w.notices) ∨ ∀ n ∈ w.kept, n ∉ noticeIDs → n ∈ w.notices
  | _ => True

/-- What was read comes before what is at the offset and behind it. -/
structure Ordered (w : World) : Prop where
  ascending : (w.notices ++ w.pending.drop w.offset).Pairwise (· < ·)
  below : ∀ n ∈ w.notices ++ w.pending, n < w.next

theorem Ordered.deliver (h : Ordered w) (ids : List Nat) : Ordered (w.deliver ids) := by
  have hsub : (w.pending.filter (· ∉ ids)).Sublist w.pending := filter_sublist
  exact ⟨h.ascending.sublist ((Sublist.refl _).append (hsub.drop _)),
    fun n hn => h.below n (((Sublist.refl _).append hsub).subset hn)⟩

theorem Ordered.step (h : Ordered w) (hs : step w a = some w') : Ordered w' := by
  cases a with
  | createSessionNotice =>
    cases hs
    have hsub : ((w.pending ++ [w.next]).drop w.offset).Sublist
        (w.pending.drop w.offset ++ [w.next]) := by
      rw [drop_append]
      exact (Sublist.refl _).append (drop_sublist _ _)
    refine ⟨Pairwise.sublist ((Sublist.refl _).append hsub) ?_, fun n hn => ?_⟩
    · rw [← append_assoc]
      refine pairwise_append.2 ⟨h.ascending, pairwise_singleton _ _, fun a ha b hb => ?_⟩
      rw [mem_singleton.1 hb]
      exact h.below a (((Sublist.refl _).append (drop_sublist _ _)).subset ha)
    · rw [← append_assoc] at hn
      rcases mem_snoc.1 hn with hn | hn
      · exact Nat.lt_succ_of_lt (h.below n hn)
      · exact hn ▸ Nat.lt_succ_self _
  | drainSessionNotices => cases hs; exact h.deliver _
  | deliverOpeningNotices => cases (of_guard hs).2; exact h.deliver _
  | list =>
    cases (of_guard hs).2
    refine ⟨?_, fun n hn => h.below n ?_⟩
    · have hasc := h.ascending
      rwa [← take_append_drop defaultPageLimit (w.pending.drop w.offset), drop_drop,
        ← append_assoc] at hasc
    · rcases mem_append.1 hn with hn | hn
      · rcases mem_append.1 hn with hn | hn
        · exact mem_append_left _ hn
        · exact mem_append_right _ (mem_of_mem_drop (mem_of_mem_take hn))
      · exact mem_append_right _ hn
  | probe => cases (of_guard hs).2; exact ⟨h.ascending, h.below⟩

theorem Ordered.nodup (h : Ordered w) : w.notices.Nodup :=
  (pairwise_append.1 h.ascending).1.imp Nat.ne_of_lt

/-- The pages are the beginning of what is pending, or hold all that is waited for. -/
structure Complete (w : World) : Prop where
  start : w.offset = 0 → w.notices = []
  kept : ∀ n ∈ w.kept, n ∈ w.pending
  found : (∀ n ∈ w.kept, n ∈ w.notices) ∨
    w.phase ≠ .returned ∧ w.notices.length = w.offset ∧ w.notices <+: w.pending

theorem Complete.deliver (h : Complete w) (hdel : (∀ id ∈ ids, id ∉ w.notices) ∨
    ∀ n ∈ w.kept, n ∉ ids → n ∈ w.notices) : Complete (w.deliver ids) := by
  refine ⟨h.start, fun n hn => ?_, ?_⟩
  · obtain ⟨hn, hid⟩ := mem_filter.1 hn
    exact mem_filter.2 ⟨h.kept n hn, hid⟩
  rcases hdel with hapart | hall
  · refine h.found.imp (fun hfound n hn => hfound n (mem_filter.1 hn).1) ?_
    rintro ⟨hphase, hlen, rest, hpend⟩
    refine ⟨hphase, hlen, rest.filter (· ∉ ids), ?_⟩
    have hread : w.notices.filter (· ∉ ids) = w.notices :=
      filter_eq_self.2 fun n hn => decide_eq_true fun hid => hapart n hid hn
    show w.notices ++ _ = w.pending.filter _
    rw [← hpend, filter_append, hread]
  · refine .inl fun n hn => ?_
    obtain ⟨hn, hid⟩ := mem_filter.1 hn
    exact hall n hn (of_decide_eq_true hid)

theorem Complete.list (h : Complete w) : Complete w.list := by
  have hkept : ∀ n ∈ w.list.kept, n ∈ w.pending := by
    intro n hn
    unfold World.list at hn
    split at hn
    · exact hn
    · exact h.kept n hn
  refine ⟨fun h0 => absurd h0 (Nat.succ_ne_zero _), hkept, ?_⟩
  have hpart : w.offset ≠ 0 ∧ (∀ n ∈ w.kept, n ∈ w.notices) ∨
      w.notices.length = w.offset ∧ w.notices <+: w.pending := by
    by_cases h0 : w.offset = 0
    · rw [h.start h0, h0]
      exact .inr ⟨rfl, nil_prefix⟩
    · exact h.found.imp (fun hfound => ⟨h0, hfound⟩) (·.2)
  rcases hpart with ⟨h0, hfound⟩ | ⟨hlen, rest, hpend⟩
  · refine .inl fun n hn => mem_append_left _ (hfound n ?_)
    rwa [World.list, if_neg h0] at hn
  have hdrop : w.pending.drop w.offset = rest := by rw [← hpend, drop_left' hlen]
  by_cases hlast : rest.length < defaultPageLimit
  · refine .inl fun n hn => ?_
    show n ∈ w.notices ++ take _ _
    rw [hdrop, take_of_length_le (Nat.le_of_lt hlast), hpend]
    exact hkept n hn
  · have hfull : (rest.take defaultPageLimit).length = defaultPageLimit := by
      rw [length_take]
      omega
    refine .inr ⟨?_, ?_, rest.drop defaultPageLimit, ?_⟩
    · simp [World.list, hdrop, hfull]
    · simp [World.list, hdrop, hfull, hlen]
    · show w.notices ++ take _ _ ++ _ = w.pending
      rw [hdrop, append_assoc, take_append_drop, hpend]

theorem Complete.step (h : Complete w) (ha : Undisturbed w a) (hs : step w a = some w') :
    Complete w' := by
  cases a with
  | createSessionNotice =>
    cases hs
    exact ⟨h.start, fun n hn => mem_append_left _ (h.kept n hn),
      h.found.imp_right fun ⟨hp, hl, hpre⟩ => ⟨hp, hl, hpre.trans (prefix_append _ _)⟩⟩
  | drainSessionNotices =>
    cases hs
    exact h.deliver (.inr fun n hn hno => absurd (h.kept n hn) hno)
  | deliverOpeningNotices => cases (of_guard hs).2; exact h.deliver ha
  | list => cases (of_guard hs).2; exact h.list
  | probe =>
    cases (of_guard hs).2
    refine ⟨h.start, h.kept, ?_⟩
    rcases h.found with hfound | ⟨-, hlen, rest, hpend⟩
    · exact .inl hfound
    have hdrop : w.pending.drop w.offset = rest := by rw [← hpend, drop_left' hlen]
    cases rest with
    | nil => exact .inl fun n hn => by simpa [← hpend] using h.kept n hn
    | cons => exact .inr ⟨by simp [hdrop], hlen, _, hpend⟩

/-- **The re-check sees every waiting notice**, in every run in which no turn opening disturbs it:
when it returns, each notice that was pending at its first query and is pending since is in its list
exactly once. No notice is there twice, whatever happens. -/
theorem waiting_notices_seen (actions : List Action) :
    Always step (fun w => w.notices.Nodup) {} actions ∧
    (Along step Undisturbed {} actions → Always step (fun w =>
      w.phase = .returned → ∀ n ∈ w.kept, w.notices.count n = 1) {} actions) := by
  have hordered : Ordered {} := ⟨.nil, nofun⟩
  refine ⟨(Always.of_step (fun _ _ _ h hs => h.step hs) hordered).mono fun _ h => h.nodup,
    fun hrun => ?_⟩
  have hnew : Ordered {} ∧ Complete {} := ⟨hordered, fun _ => rfl, nofun, .inl nofun⟩
  refine (always_of_along (I := fun w => Ordered w ∧ Complete w)
    (fun _ _ _ h ha hs => ⟨h.1.step hs, h.2.step ha hs⟩) hnew hrun).mono fun w ⟨hord, hcomp⟩ => ?_
  intro hret n hn
  rcases hcomp.found with hfound | ⟨hne, -⟩
  · exact count_eq_one_of_mem hord.nodup (hfound n hn)
  · exact absurd hret hne

/-- Fifty-one notices, of which the first is delivered to a turn between the two queries of the first
page. -/
def deliveredBetween : List Action :=
  replicate 51 .createSessionNotice ++ [.list, .deliverOpeningNotices [1], .probe]

/-- The last notice was pending all the time, and is not in the list. -/
theorem waiting_notice_skipped : (exec step {} deliveredBetween).any (fun w =>
    w.phase = .returned ∧ 51 ∈ w.kept ∧ 51 ∉ w.notices) := by decide +kernel

instance (w : World) : ∀ a, Decidable (Undisturbed w a)
  | .deliverOpeningNotices _ => inferInstanceAs (Decidable (_ ∨ _))
  | .createSessionNotice | .drainSessionNotices | .list | .probe => .isTrue trivial

/-- Fifty-two notices, of which one that is not read yet is delivered to a turn between the pages. -/
def deliveredAhead : List Action :=
  replicate 52 .createSessionNotice ++ [.list, .deliverOpeningNotices [51], .probe, .list]

/-- The notice of the second page is in the list once, as those of the first. -/
theorem waiting_notices_seen_paged : Along step Undisturbed {} deliveredAhead ∧
    (exec step {} deliveredAhead).any (fun w =>
      w.phase = .returned ∧ 1 ∈ w.kept ∧ 51 ∉ w.kept ∧ 52 ∈ w.kept) ∧
    Always step (fun w => w.phase = .returned → ∀ n ∈ w.kept, w.notices.count n = 1) {}
      deliveredAhead := by
  have hrun : Along step Undisturbed {} deliveredAhead := by decide +kernel
  exact ⟨hrun, by decide +kernel, (waiting_notices_seen deliveredAhead).2 hrun⟩

end Peen.PendingNotices
