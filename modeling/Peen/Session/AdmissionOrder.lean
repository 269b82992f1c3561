import Mathlib.Data.List.Sort
import Peen.Session.AdmissionGate

/-!
# Admission in order

A line is in the order of reservation, only its front is admitted, and its front is admitted unless it
was stopped (`AdmissionGate.Sound`).
-/

namespace Peen.Admission

open Lts List AdmissionGate World

namespace AdmissionGate

variable {g g' : AdmissionGate} {s : UUID} {t : Nat}

/-! ## Lines -/

/-- Lines are in order of reservation, only their fronts are admitted, and a front is admitted or
stopped. -/
structure Sound (g : AdmissionGate) : Prop where
  member : ∀ s t, t ∈ g.lines s →
    t < g.count ∧ (g.ticket t).sessionID = s ∧ (g.ticket t).released = false
  sorted : ∀ s, (g.lines s).Pairwise (· < ·)
  front : ∀ s t, t ∈ g.lines s → (g.ticket t).admitted = true → (g.lines s).head? = some t
  ready : ∀ s t, (g.lines s).head? = some t →
    (g.ticket t).admitted = true ∨ (g.ticket t).stopped = true
  inLine : ∀ t, t < g.count → (g.ticket t).released = false → (g.ticket t).stopped = false →
    t ∈ g.lines (g.ticket t).sessionID
  ok : g.panicked = false

theorem Sound.le_of_head (h : g.Sound) (ht : (g.lines s).head? = some t) :
    ∀ k ∈ g.lines s, t ≤ k := by
  intro k hk
  have hs := h.sorted s
  cases hl : g.lines s with
  | nil => rw [hl] at hk; cases hk
  | cons =>
    rw [hl] at ht hk hs
    cases ht
    rcases mem_cons.1 hk with hk | hk
    · exact hk.symm.le
    · exact (rel_of_pairwise_cons hs hk).le

/-- Tickets only leave lines: what is left of a line is in order, fronts are admitted as they come up,
and who left was released or stopped. -/
structure Shrinks (g g' : AdmissionGate) : Prop where
  count : g'.count = g.count
  session : ∀ t, (g'.ticket t).sessionID = (g.ticket t).sessionID
  sub : ∀ s, (g'.lines s).Sublist (g.lines s)
  stays : ∀ s t, t ∈ g'.lines s → (g'.ticket t).released = (g.ticket t).released
  admits : ∀ s t, t ∈ g'.lines s → (g'.ticket t).admitted = true →
    (g.ticket t).admitted = true ∨ (g'.lines s).head? = some t
  ready : ∀ s t, (g'.lines s).head? = some t →
    (g'.ticket t).admitted = true ∨ (g'.ticket t).stopped = true
  left : ∀ s t, t ∈ g.lines s → t ∉ g'.lines s →
    (g'.ticket t).released = true ∨ (g'.ticket t).stopped = true
  mono : ∀ t, ((g.ticket t).admitted = true → (g'.ticket t).admitted = true) ∧
    ((g.ticket t).released = true → (g'.ticket t).released = true) ∧
    ((g.ticket t).stopped = true → (g'.ticket t).stopped = true)
  ok : g'.panicked = g.panicked

/-- **What only shrinks stays sound.** -/
theorem Sound.shrink (h : g.Sound) (hs : Shrinks g g') : g'.Sound where
  member := by
    intro s t ht
    obtain ⟨hlt, hse, hrel⟩ := h.member s t ((hs.sub s).subset ht)
    exact ⟨hs.count ▸ hlt, (hs.session t).trans hse, (hs.stays s t ht).trans hrel⟩
  sorted := fun s => (h.sorted s).sublist (hs.sub s)
  front := by
    intro s t ht hadm
    rcases hs.admits s t ht hadm with hadm | hhead
    · have hmin := h.le_of_head (h.front s t ((hs.sub s).subset ht) hadm)
      have hsrt := (h.sorted s).sublist (hs.sub s)
      cases hl : g'.lines s with
      | nil => rw [hl] at ht; cases ht
      | cons a rest =>
        have hle := hmin a ((hs.sub s).subset (by rw [hl]; exact mem_cons_self))
        rw [hl] at ht hsrt
        rcases mem_cons.1 ht with hta | hta
        · rw [hta]; rfl
        · have := rel_of_pairwise_cons hsrt hta
          omega
    · exact hhead
  ready := hs.ready
  inLine := by
    intro t hlt hrel hstop
    obtain ⟨_, hmr, hms⟩ := hs.mono t
    have hrel' : (g.ticket t).released = false := Bool.eq_false_iff.2 fun hx => by
      rw [hmr hx] at hrel; cases hrel
    have hstop' : (g.ticket t).stopped = false := Bool.eq_false_iff.2 fun hx => by
      rw [hms hx] at hstop; cases hstop
    rw [hs.session]
    have hmem := h.inLine t (hs.count ▸ hlt) hrel' hstop'
    refine Classical.byContradiction fun hno => ?_
    rcases hs.left _ t hmem hno with hx | hx
    · rw [hx] at hrel; cases hrel
    · rw [hx] at hstop; cases hstop
  ok := hs.ok.trans h.ok

theorem Sound.shrinks_setTicket (h : g.Sound) {x : AdmissionTicket}
    (hx : x.sessionID = (g.ticket t).sessionID ∧ x.admitted = (g.ticket t).admitted ∧
      x.released = (g.ticket t).released ∧ x.stopped = (g.ticket t).stopped) :
    Shrinks g (g.setTicket t x) := by
  have hsame : ∀ k, ((g.setTicket t x).ticket k).sessionID = (g.ticket k).sessionID ∧
      ((g.setTicket t x).ticket k).admitted = (g.ticket k).admitted ∧
      ((g.setTicket t x).ticket k).released = (g.ticket k).released ∧
      ((g.setTicket t x).ticket k).stopped = (g.ticket k).stopped := by
    intro k
    unfold setTicket
    dsimp only
    split
    next hk => rw [hk]; exact hx
    next => exact ⟨rfl, rfl, rfl, rfl⟩
  exact {
    count := rfl
    session := fun k => (hsame k).1
    sub := fun _ => Sublist.refl _
    stays := fun _ k _ => (hsame k).2.2.1
    admits := fun _ k _ hk => .inl ((hsame k).2.1 ▸ hk)
    ready := fun s k hk => by rw [(hsame k).2.1, (hsame k).2.2.2]; exact h.ready s k hk
    left := fun _ _ hk hno => absurd hk hno
    mono := fun k => by
      rw [(hsame k).2.1, (hsame k).2.2.1, (hsame k).2.2.2]
      exact ⟨id, id, id⟩
    ok := rfl }

/-! ## What the operations do to lines -/

section
variable (g : AdmissionGate) (sessionID : UUID)

theorem reserve_lines (sessionID s : UUID) : (g.reserve sessionID).lines s = if s =
    sessionID then g.lines sessionID ++ [g.count] else g.lines s := by
  unfold reserve
  dsimp only
  split <;> rfl

theorem reserve_count : (g.reserve sessionID).count = g.count + 1 := by
  unfold reserve
  dsimp only
  split <;> rfl

theorem reserve_ticket_of_ne {k : Nat} (hk : k ≠ g.count) :
    (g.reserve sessionID).ticket k = g.ticket k := by
  unfold reserve closeAdmitted setLine setTicket
  dsimp only
  split <;> simp only [if_neg hk]

theorem reserve_ticket_self : (g.reserve sessionID).ticket g.count =
    ⟨sessionID, (g.lines sessionID).isEmpty, false, [], false, false⟩ := by
  unfold reserve closeAdmitted setLine setTicket
  cases hl : g.lines sessionID <;> simp

end

/-- **`Reserve`** puts a ticket at the end of a line, and admits it when it is alone there. -/
theorem Sound.reserve (h : g.Sound) (sessionID : UUID) : (g.reserve sessionID).Sound := by
  have hnew (s : UUID) (k : Nat) (hk : k ∈ g.lines s) : k ≠ g.count := (h.member s k hk).1.ne
  have hline := g.reserve_lines sessionID
  have hct := g.reserve_count sessionID
  have hold (k : Nat) (hk : k ≠ g.count) := g.reserve_ticket_of_ne sessionID hk
  have hself := g.reserve_ticket_self sessionID
  have hok : (g.reserve sessionID).panicked = g.panicked := by
    unfold AdmissionGate.reserve closeAdmitted setLine setTicket
    dsimp only
    split
    · rw [if_pos rfl]; exact Bool.or_false _
    · rfl
  -- a line is the old one, with the new ticket at the end if it is this session's
  have hmem (s : UUID) (k : Nat) (hk : k ∈ (g.reserve sessionID).lines s) :
      k ∈ g.lines s ∨ (s = sessionID ∧ k = g.count) := by
    rw [hline] at hk
    split at hk
    next hs =>
      rcases mem_snoc.1 hk with hk | hk
      · exact .inl (hs ▸ hk)
      · exact .inr ⟨hs, hk⟩
    next => exact .inl hk
  have hhead (s : UUID) (k : Nat) (hk : (g.lines s).head? = some k) :
      ((g.reserve sessionID).lines s).head? = some k := by
    rw [hline]
    split
    next hs => subst hs; rw [head?_append, hk]; rfl
    next => exact hk
  refine ⟨?_, ?_, ?_, ?_, ?_, hok.trans h.ok⟩
  · intro s k hk
    rcases hmem s k hk with hk | ⟨hs, hk⟩
    · rw [hold k (hnew s k hk), hct]
      obtain ⟨hlt, hrest⟩ := h.member s k hk
      exact ⟨hlt.trans (Nat.lt_succ_self _), hrest⟩
    · subst hk
      rw [hself, hct]
      exact ⟨Nat.lt_succ_self _, hs.symm, rfl⟩
  · intro s
    rw [hline]
    split
    · refine pairwise_append.2 ⟨h.sorted _, pairwise_singleton _ _, ?_⟩
      intro a ha b hb
      rw [mem_singleton.1 hb]
      exact (h.member _ a ha).1
    · exact h.sorted s
  · intro s k hk hadm
    rcases hmem s k hk with hk | ⟨hs, hk⟩
    · rw [hold k (hnew s k hk)] at hadm
      exact hhead s k (h.front s k hk hadm)
    · subst hk
      rw [hself] at hadm
      rw [hline, hs, if_pos rfl, isEmpty_iff.1 hadm]
      rfl
  · intro s k hk
    cases hl : g.lines s with
    | cons a rest =>
      have hka : k = a := by
        rw [hhead s a (by rw [hl]; rfl)] at hk
        exact (Option.some.inj hk).symm
      rw [hold k (hnew s k (by rw [hl, hka]; exact mem_cons_self))]
      exact h.ready s k (by rw [hl, hka]; rfl)
    | nil =>
      rcases hmem s k (mem_of_head? hk) with hk' | ⟨hs, hk'⟩
      · rw [hl] at hk'; cases hk'
      · subst hk' hs
        rw [hself, hl]
        exact .inl rfl
  · intro k hlt hrel hstop
    rw [hct] at hlt
    rcases Nat.lt_succ_iff_lt_or_eq.1 hlt with hlt | heq
    · rw [hold k hlt.ne] at hrel hstop ⊢
      have hk := h.inLine k hlt hrel hstop
      rw [hline]
      split
      next hs => exact mem_append_left _ (hs ▸ hk)
      next => exact hk
    · subst heq
      rw [hself, hline, if_pos rfl]
      exact mem_concat_self

section
variable (g : AdmissionGate) (line : List Nat)

theorem cancelTickets_fst : (g.cancelTickets line).1 = { g with ticket := fun k => if k ∈ line then
      { g.ticket k with stopped := true, cancellations := [] } else g.ticket k } := by
  induction line generalizing g with
  | nil => simp [cancelTickets]
  | cons t line ih =>
    simp only [cancelTickets, ih, setTicket, mk.injEq, true_and, and_true]
    funext k
    rcases Classical.em (k = t) with hk | hk
    · subst hk; simp
    · simp [hk]

theorem cancelTickets_retained :
    (g.cancelTickets line).2.retained = line.filter fun k => (g.ticket k).preparing := by
  induction line generalizing g with
  | nil => rfl
  | cons t line ih =>
    have hsame : ∀ k, ((g.setTicket t { g.ticket t with stopped := true, cancellations := [] }).ticket
        k).preparing = (g.ticket k).preparing := by
      intro k
      unfold setTicket
      dsimp only
      split
      next hk => rw [hk]
      next => rfl
    simp only [cancelTickets, ih, hsame, filter_cons]

theorem cancelPending_lines (sessionID s : UUID) : (g.cancelPending sessionID).1.lines s = if s =
    sessionID then (g.lines sessionID).filter fun k => (g.ticket k).preparing else g.lines s := by
  simp only [cancelPending, setLine, cancelTickets_fst, cancelTickets_retained]

theorem cancelPending_ticket (sessionID : UUID) (k : Nat) : (g.cancelPending sessionID).1.ticket k =
    if k ∈ g.lines sessionID then { g.ticket k with stopped := true, cancellations := [] } else g.ticket k := by
  simp only [cancelPending, setLine, cancelTickets_fst]

end

/-- **`CancelPending`** stops every ticket of a line and takes out those not being prepared. -/
theorem Sound.shrinks_cancelPending (h : g.Sound) (sessionID : UUID) :
    Shrinks g (g.cancelPending sessionID).1 := by
  have hline := g.cancelPending_lines sessionID
  have htick := g.cancelPending_ticket sessionID
  have hsub (s : UUID) : ((g.cancelPending sessionID).1.lines s).Sublist (g.lines s) := by
    rw [hline]
    split
    next hs => subst hs; exact filter_sublist
    next => exact Sublist.refl _
  have hkeep (k : Nat) : ((g.cancelPending sessionID).1.ticket k).admitted = (g.ticket k).admitted ∧
      ((g.cancelPending sessionID).1.ticket k).released = (g.ticket k).released ∧
      ((g.cancelPending sessionID).1.ticket k).sessionID = (g.ticket k).sessionID := by
    rw [htick]
    split <;> exact ⟨rfl, rfl, rfl⟩
  have hstop (k : Nat) (hk : k ∈ g.lines sessionID) :
      ((g.cancelPending sessionID).1.ticket k).stopped = true := by
    rw [htick, if_pos hk]
  exact {
    count := by simp only [cancelPending, setLine, cancelTickets_fst]
    session := fun k => (hkeep k).2.2
    sub := hsub
    stays := fun _ k _ => (hkeep k).2.1
    admits := fun _ k _ hk => .inl ((hkeep k).1 ▸ hk)
    ready := by
      intro s k hk
      rcases Classical.em (s = sessionID) with hs | hs
      · subst hs
        exact .inr (hstop k ((hsub s).subset (mem_of_head? hk)))
      · rw [hline, if_neg hs] at hk
        have hmem := mem_of_head? hk
        have hno : k ∉ g.lines sessionID := fun hx =>
          hs ((h.member s k hmem).2.1.symm.trans (h.member sessionID k hx).2.1)
        rw [htick, if_neg hno]
        exact h.ready s k hk
    left := by
      intro s k hk hno
      rw [hline] at hno
      split at hno
      next hs => subst hs; exact .inr (hstop k hk)
      next => exact absurd hk hno
    mono := by
      intro k
      rw [(hkeep k).1, (hkeep k).2.1]
      refine ⟨id, id, fun hx => ?_⟩
      rw [htick]
      split
      · rfl
      · exact hx
    ok := by simp only [cancelPending, setLine, cancelTickets_fst] }

/-- The gate after a ticket left its line and before the next one is admitted. -/
def without (g : AdmissionGate) (t : Nat) : AdmissionGate :=
  (g.setTicket t { g.ticket t with cancellations := [], preparing := false }).setLine
    (g.ticket t).sessionID ((g.lines (g.ticket t).sessionID).erase t)

def promoted (g : AdmissionGate) (t : Nat) : Option Nat :=
  let line := g.lines (g.ticket t).sessionID
  if line.head? = some t then (line.erase t).head? else none

/-- **`leave`** takes a ticket out of its line and admits the one that comes to the front. -/
theorem leave_eq (g : AdmissionGate) (t : Nat) : g.leave t = match g.promoted t with
      | none => g.without t
      | some front => (g.without t).closeAdmitted front := by
  unfold leave without promoted
  dsimp only
  generalize hl : g.lines (g.ticket t).sessionID = line
  split
  next hno =>
    have hhead : line.head? ≠ some t := fun hx => hno (mem_of_head? hx)
    rw [if_neg hhead, erase_of_not_mem hno]
    simp only [setLine, setTicket, mk.injEq, true_and, and_true]
    funext s
    split
    next hs => rw [hs, hl]
    next => rfl
  next hmem =>
    cases line with
    | nil => exact absurd not_mem_nil hmem
    | cons a rest =>
      rcases Classical.em (a = t) with ha | ha
      · subst ha
        cases rest <;> simp
      · simp [ha]

theorem Sound.shrinks_self (h : g.Sound) : Shrinks g g :=
  ⟨rfl, fun _ => rfl, fun _ => Sublist.refl _, fun _ _ _ => rfl, fun _ _ _ hk => .inl hk,
    h.ready, fun _ _ hk hno => absurd hk hno, fun _ => ⟨id, id, id⟩, rfl⟩

theorem Sound.of_promoted (h : g.Sound) {k : Nat} (hk : g.promoted t = some k) :
    ((g.lines (g.ticket t).sessionID).erase t).head? = some k ∧
      (g.ticket k).sessionID = (g.ticket t).sessionID ∧ (g.ticket k).admitted = false := by
  obtain ⟨ht, hk⟩ := of_guard hk
  have hmem := mem_of_head? hk
  have hline := mem_of_mem_erase hmem
  refine ⟨hk, (h.member _ k hline).2.1, Bool.eq_false_iff.2 fun hadm => ?_⟩
  rw [h.front _ k hline hadm] at ht
  cases ht
  exact (Nodup.not_mem_erase ((h.sorted _).imp Nat.ne_of_lt)) hmem

theorem leave_lines (g : AdmissionGate) (t : Nat) (s : UUID) : (g.leave t).lines s =
    if s = (g.ticket t).sessionID then (g.lines (g.ticket t).sessionID).erase t else g.lines s := by
  rw [leave_eq]
  cases g.promoted t <;> rfl

theorem without_ticket (g : AdmissionGate) (t k : Nat) :
    ((g.without t).ticket k).sessionID = (g.ticket k).sessionID ∧
      ((g.without t).ticket k).released = (g.ticket k).released ∧
      ((g.without t).ticket k).stopped = (g.ticket k).stopped ∧
      ((g.without t).ticket k).admitted = (g.ticket k).admitted := by
  simp only [without, setLine, setTicket]
  split
  next hk => subst hk; exact ⟨rfl, rfl, rfl, rfl⟩
  next => exact ⟨rfl, rfl, rfl, rfl⟩

theorem leave_ticket (g : AdmissionGate) (t k : Nat) :
    ((g.leave t).ticket k).sessionID = (g.ticket k).sessionID ∧
      ((g.leave t).ticket k).released = (g.ticket k).released ∧
      ((g.leave t).ticket k).stopped = (g.ticket k).stopped ∧
      (((g.leave t).ticket k).admitted = true ↔
        (g.ticket k).admitted = true ∨ g.promoted t = some k) := by
  obtain ⟨hs, hr, hst, ha⟩ := g.without_ticket t k
  rw [leave_eq]
  cases hp : g.promoted t with
  | none => exact ⟨hs, hr, hst, by rw [ha]; simp⟩
  | some front =>
    simp only [closeAdmitted, setTicket]
    split
    next hk => subst hk; exact ⟨hs, hr, hst, by simp⟩
    next hk => exact ⟨hs, hr, hst, by rw [ha]; simp [Ne.symm hk]⟩

/-- **`Release`** takes a ticket out of its line and admits the one that comes to the front. -/
theorem Sound.shrinks_release (h : g.Sound) (t : Nat) : Shrinks g (g.release t) := by
  unfold release
  split
  · exact h.shrinks_self
  have htick (k : Nat) (x : AdmissionTicket) (hx : x = ((g.leave t).setTicket t
      { (g.leave t).ticket t with released := true }).ticket k) :
      x.sessionID = (g.ticket k).sessionID ∧ x.stopped = (g.ticket k).stopped ∧
        (x.released = true ↔ (g.ticket k).released = true ∨ k = t) ∧
        (x.admitted = true ↔ (g.ticket k).admitted = true ∨ g.promoted t = some k) := by
    obtain ⟨hs, hr, hst, ha⟩ := g.leave_ticket t k
    subst hx
    simp only [setTicket]
    split
    next hk => subst hk; exact ⟨hs, hst, by simp, ha⟩
    next hk => exact ⟨hs, hst, by rw [hr]; simp [hk], ha⟩
  have hnd (s : UUID) : (g.lines s).Nodup := (h.sorted s).imp Nat.ne_of_lt
  have hsub (s : UUID) : ((g.leave t).lines s).Sublist (g.lines s) := by
    rw [leave_lines]
    split
    next hs => subst hs; exact erase_sublist
    next => exact Sublist.refl _
  have hgone (s : UUID) : t ∉ (g.leave t).lines s := by
    intro ht
    have hs := (h.member s t ((hsub s).subset ht)).2.1
    rw [leave_lines, if_pos hs.symm] at ht
    exact (hnd _).not_mem_erase ht
  exact {
    count := by
      rw [leave_eq]
      cases g.promoted t <;> rfl
    session := fun k => (htick k _ rfl).1
    sub := hsub
    stays := by
      intro s k hk
      have hkt : k ≠ t := fun hx => hgone s (hx ▸ hk)
      refine Bool.eq_iff_iff.2 ((htick k _ rfl).2.2.1.trans ?_)
      simp [hkt]
    admits := by
      intro s k hk hadm
      rcases (htick k _ rfl).2.2.2.1 hadm with hadm | hprom
      · exact .inl hadm
      · obtain ⟨hhead, hse, _⟩ := h.of_promoted hprom
        have hs := (h.member s k ((hsub s).subset hk)).2.1
        refine .inr ?_
        show ((g.leave t).lines s).head? = some k
        rw [leave_lines, if_pos (hs.symm.trans hse)]
        exact hhead
    ready := by
      intro s k hk
      change ((g.leave t).lines s).head? = some k at hk
      have hold : (g.lines s).head? = some k → _ ∨ _ := fun hx =>
        (h.ready s k hx).imp (fun hadm => (htick k _ rfl).2.2.2.2 (.inl hadm))
          (fun hst => (htick k _ rfl).2.1.trans hst)
      rw [leave_lines] at hk
      split at hk
      next hs =>
        subst hs
        rcases Classical.em ((g.lines (g.ticket t).sessionID).head? = some t) with ht | ht
        · refine .inl ((htick k _ rfl).2.2.2.2 (.inr ?_))
          rw [promoted, if_pos ht, hk]
        · refine hold ?_
          cases hl : g.lines (g.ticket t).sessionID with
          | nil => rw [hl] at hk; cases hk
          | cons a rest =>
            rw [hl] at hk ht
            have hat : a ≠ t := fun hx => ht (by rw [hx]; rfl)
            rw [erase_cons_tail (by simpa using hat)] at hk
            exact hk
      next => exact hold hk
    left := by
      intro s k hk hno
      have hkt : k = t := by
        refine Classical.byContradiction fun hkt => hno ?_
        show k ∈ (g.leave t).lines s
        rw [leave_lines]
        split
        next hs => subst hs; exact (mem_erase_of_ne hkt).2 hk
        next => exact hk
      exact .inl ((htick k _ rfl).2.2.1.2 (.inr hkt))
    mono := by
      intro k
      obtain ⟨_, hst, hr, ha⟩ := htick k _ rfl
      exact ⟨fun hx => ha.2 (.inl hx), fun hx => hr.2 (.inl hx), fun hx => hst.trans hx⟩
    ok := by
      rw [leave_eq]
      cases hp : g.promoted t with
      | none => rfl
      | some front =>
        show (g.panicked || ((g.without t).ticket front).admitted) = g.panicked
        rw [(g.without_ticket t front).2.2.2, (h.of_promoted hp).2.2, Bool.or_false] }

theorem mem_release {k : Nat} (hrel : ((g.release t).ticket k).released = false)
    (hk : k ∈ g.lines s) : k ∈ (g.release t).lines s := by
  unfold release at hrel ⊢
  split at hrel
  next hr => rw [if_pos hr]; exact hk
  next hr =>
    rw [if_neg hr]
    have hkt : k ≠ t := by
      intro hx
      subst hx
      simp [setTicket] at hrel
    show k ∈ (g.leave t).lines s
    rw [leave_lines]
    split
    next hs => subst hs; exact (mem_erase_of_ne hkt).2 hk
    next => exact hk

theorem bindContext_lines (g : AdmissionGate) (t : Nat) (c : ContextID) :
    (g.bindContext t c).1.lines = g.lines := by
  unfold bindContext
  dsimp only
  split <;> rfl

/-- **`BindContext`** changes nothing a line depends on. -/
theorem Sound.shrinks_bindContext (h : g.Sound) (t : Nat) (c : ContextID) :
    Shrinks g (g.bindContext t c).1 := by
  unfold bindContext
  dsimp only
  split
  · exact h.shrinks_self
  · exact h.shrinks_setTicket ⟨rfl, rfl, rfl, rfl⟩

end AdmissionGate

/-! ## Runs -/

variable {w w' : World}

/-- **Lines stay sound**: a ticket is reserved, or tickets leave lines. -/
theorem sound_step (h : w.gate.Sound) (hstep : step w a = some w') : w'.gate.Sound := by
  cases a with
  | reserve s => cases hstep; exact h.reserve s
  | bindContext t =>
    obtain ⟨_, hstep⟩ := of_guard hstep
    cases hstep; exact h.shrink (h.shrinks_bindContext t _)
  | wait =>
    obtain ⟨_, hstep⟩ := of_guard hstep
    cases hstep
    unfold wait
    split <;> exact h
  | select call case ended =>
    obtain ⟨_, hstep⟩ := of_guard hstep
    cases case <;> (obtain ⟨_, hstep⟩ := of_guard hstep; cases hstep; exact h)
  | recheck =>
    obtain ⟨_, hstep⟩ := of_guard hstep
    cases hstep
    unfold recheck
    dsimp only
    split <;> exact h
  | release t =>
    obtain ⟨_, hstep⟩ := of_guard hstep
    cases hstep; exact h.shrink (h.shrinks_release t)
  | cancelPending s => cases hstep; exact h.shrink (h.shrinks_cancelPending s)
  | cancelBound c =>
    obtain ⟨_, hstep⟩ := of_guard hstep
    cases hstep; exact h

theorem sound_initial : initial.gate.Sound :=
  ⟨nofun, fun _ => .nil, nofun, nofun, nofun, rfl⟩

abbrev World.session (w : World) (t : Nat) : UUID := (w.gate.ticket t).sessionID

/-- A ticket whose `Wait` returned without an error and that was not released. -/
def World.Holds (w : World) (t : Nat) : Prop :=
  t ∈ w.returned ∧ (w.gate.ticket t).released = false

/-- There is one holder at a time. -/
def World.Exclusive (w : World) : Prop :=
  ∀ t t', w.Holds t → w.Holds t' → w.session t = w.session t' → t = t'

/-- Tickets of a session were admitted to their holders in the order they were reserved. -/
def World.InOrder (w : World) : Prop :=
  w.returned.Pairwise fun t t' => w.session t = w.session t' → t ≤ t'

/-- A ticket that was neither released nor stopped is admitted once all tickets reserved before it in
its session are released. -/
def World.Admits (w : World) : Prop :=
  ∀ t, t < w.gate.count → (w.gate.ticket t).released = false → (w.gate.ticket t).stopped = false →
    (∀ t', t' < t → w.session t' = w.session t → (w.gate.ticket t').released = true) →
    (w.gate.ticket t).admitted = true

/-- `CancelPending` cuts off no holder: who holds a ticket of the session bound a context to it. And no
`Wait` returns without an error for a ticket that was released. -/
def Careful (w : World) : Action → Prop
  | .cancelPending s => ∀ t ∈ w.returned, w.session t = s → (w.gate.ticket t).released = false →
      (w.gate.ticket t).preparing = true
  | .recheck call ended => w.checkCancellation call.ticket call.context ended = false →
      (w.gate.ticket call.ticket).released = false
  | _ => True

instance (w : World) (a : Action) : Decidable (Careful w a) := by
  cases a <;> unfold Careful <;> infer_instance

/-- **What is held is at the front** of its line. -/
structure World.Held (w : World) : Prop where
  sound : w.gate.Sound
  calls : ∀ call ∈ w.waits, call.ticket < w.gate.count ∧
    (call.place = .rechecking → (w.gate.ticket call.ticket).admitted = true)
  first : ∀ t ∈ w.returned, t < w.gate.count ∧ ∀ k ∈ w.gate.lines (w.session t), t ≤ k
  holds : ∀ t ∈ w.returned, (w.gate.ticket t).released = false → t ∈ w.gate.lines (w.session t)
  order : w.InOrder

theorem World.Held.exclusive (h : w.Held) : w.Exclusive := by
  intro t t' ht ht' hs
  have hle := (h.first t ht.1).2 t' (hs ▸ h.holds t' ht'.1 ht'.2)
  have hle' := (h.first t' ht'.1).2 t (hs ▸ h.holds t ht.1 ht.2)
  omega

theorem AdmissionGate.Sound.admits (h : w.gate.Sound) : w.Admits := by
  intro t hlt hrel hstop hall
  have hmem := h.inLine t hlt hrel hstop
  cases hl : w.gate.lines (w.session t) with
  | nil => rw [hl] at hmem; cases hmem
  | cons a rest =>
    have hhead : (w.gate.lines (w.session t)).head? = some a := by rw [hl]; rfl
    have hle := h.le_of_head hhead t hmem
    have ha := h.member _ a (by rw [hl]; exact mem_cons_self)
    have hat : a = t := by
      refine Classical.byContradiction fun hne => ?_
      have := hall a (by omega) ha.2.1
      rw [ha.2.2] at this
      cases this
    subst hat
    rcases h.ready _ a hhead with hadm | hst
    · exact hadm
    · rw [hstop] at hst; cases hst

theorem World.Held.shrink (h : w.Held) (hs : Shrinks w.gate w'.gate)
    (hwaits : w'.waits = w.waits) (hret : w'.returned = w.returned)
    (hkeep : ∀ t ∈ w.returned, (w'.gate.ticket t).released = false →
      t ∈ w.gate.lines (w.session t) → t ∈ w'.gate.lines (w.session t)) : w'.Held where
  sound := h.sound.shrink hs
  calls := by
    rw [hwaits, hs.count]
    intro call hcall
    obtain ⟨hlt, hadm⟩ := h.calls call hcall
    exact ⟨hlt, fun hp => (hs.mono _).1 (hadm hp)⟩
  first := by
    rw [hret, hs.count]
    intro t ht
    obtain ⟨hlt, hle⟩ := h.first t ht
    refine ⟨hlt, fun k hk => hle k ((hs.sub _).subset ?_)⟩
    rw [session, hs.session] at hk
    exact hk
  holds := by
    rw [hret]
    intro t ht hrel
    rw [session, hs.session]
    refine hkeep t ht hrel (h.holds t ht (Bool.eq_false_iff.2 fun hx => ?_))
    rw [(hs.mono t).2.1 hx] at hrel
    cases hrel
  order := by
    unfold InOrder session
    rw [hret]
    simp only [hs.session]
    exact h.order

theorem World.Held.reserve (h : w.Held) (s : UUID) : { w with gate := w.gate.reserve s }.Held := by
  have hold (k : Nat) (hk : k < w.gate.count) := w.gate.reserve_ticket_of_ne s hk.ne
  have hsub (s' : UUID) : w.gate.lines s' ⊆ (w.gate.reserve s).lines s' := by
    rw [reserve_lines]
    split
    next hs => subst hs; exact subset_append_left _ _
    next => exact fun _ hk => hk
  refine ⟨h.sound.reserve s, ?_, ?_, ?_, ?_⟩
  · intro call hcall
    obtain ⟨hlt, hadm⟩ := h.calls call hcall
    rw [reserve_count, hold _ hlt]
    exact ⟨hlt.trans (Nat.lt_succ_self _), hadm⟩
  · intro t ht
    obtain ⟨hlt, hle⟩ := h.first t ht
    dsimp only [session]
    rw [reserve_count, hold _ hlt]
    refine ⟨hlt.trans (Nat.lt_succ_self _), ?_⟩
    intro k hk
    rw [reserve_lines] at hk
    split at hk
    next hs =>
      rcases mem_snoc.1 hk with hk | hk
      · rw [← hs] at hk; exact hle k hk
      · rw [hk]; exact hlt.le
    next => exact hle k hk
  · intro t ht
    have hlt := (h.first t ht).1
    dsimp only [session]
    rw [hold t hlt]
    exact fun hrel => hsub _ (h.holds t ht hrel)
  · refine Pairwise.imp_of_mem ?_ h.order
    intro t t' ht ht' hle
    dsimp only [session]
    rw [hold t (h.first t ht).1, hold t' (h.first t' ht').1]
    exact hle

theorem World.Held.calls_of (h : w.Held) {waits : List WaitCall}
    (hcl : ∀ call ∈ waits, call.ticket < w.gate.count ∧
      (call.place = .rechecking → (w.gate.ticket call.ticket).admitted = true)) :
    { w with waits := waits }.Held :=
  ⟨h.sound, hcl, h.first, h.holds, h.order⟩

theorem World.Held.recheck (h : w.Held) (hcall : call ∈ w.waits) (hpc : call.place = .rechecking)
    {ended : Bool} (hcare : Careful w (.recheck call ended)) : (w.recheck call ended).Held := by
  have hrest := h.calls_of fun c hc => h.calls c (mem_of_mem_erase (b := call) hc)
  unfold World.recheck
  dsimp only
  split
  · exact hrest
  next hok =>
  obtain ⟨hlt, hadm⟩ := h.calls call hcall
  have hck : w.checkCancellation call.ticket call.context ended = false :=
    Bool.eq_false_iff.2 hok
  have hstop : (w.gate.ticket call.ticket).stopped = false := (Bool.or_eq_false_iff.1 hck).2
  have hmem := h.sound.inLine _ hlt (hcare hck) hstop
  have hle := h.sound.le_of_head (h.sound.front _ _ hmem (hadm hpc))
  refine ⟨hrest.sound, hrest.calls, ?_, ?_, ?_⟩
  · intro t ht
    rcases mem_snoc.1 ht with ht | ht
    · exact h.first t ht
    · rw [ht]; exact ⟨hlt, hle⟩
  · intro t ht hrel
    rcases mem_snoc.1 ht with ht | ht
    · exact h.holds t ht hrel
    · rw [ht]; exact hmem
  · refine pairwise_append.2 ⟨h.order, pairwise_singleton _ _, ?_⟩
    intro t ht t' ht' hs
    rw [mem_singleton.1 ht'] at hs ⊢
    exact (h.first t ht).2 _ (hs ▸ hmem)

/-- **One careful step** leaves holders at the fronts of their lines. -/
theorem held_step (h : w.Held) (hcare : Careful w a) (hstep : step w a = some w') : w'.Held := by
  cases a with
  | reserve s => cases hstep; exact h.reserve s
  | bindContext t =>
    simp only [step] at hstep
    obtain ⟨_, hstep⟩ := of_guard hstep
    cases hstep
    refine h.shrink (h.sound.shrinks_bindContext t _) rfl rfl fun k _ _ hk => ?_
    rw [bindContext_lines]
    exact hk
  | wait =>
    simp only [step, wait] at hstep
    obtain ⟨hlt, hstep⟩ := of_guard hstep
    cases hstep
    split
    · exact h
    · refine h.calls_of fun call hcall => ?_
      rcases mem_cons.1 hcall with hcall | hcall
      · subst hcall; exact ⟨hlt, nofun⟩
      · exact h.calls call hcall
  | select call case ended =>
    obtain ⟨hcall, hstep⟩ := of_guard hstep
    have hrest : ∀ c ∈ w.waits.erase call, _ := fun c hc => h.calls c (mem_of_mem_erase hc)
    cases case with
    | admitted =>
      obtain ⟨hadm, hstep⟩ := of_guard hstep
      cases hstep
      refine h.calls_of fun c hc => ?_
      rcases mem_cons.1 hc with hc | hc
      · subst hc; exact ⟨(h.calls call hcall.1).1, fun _ => hadm⟩
      · exact hrest c hc
    | stopped | done =>
      obtain ⟨_, hstep⟩ := of_guard hstep
      cases hstep; exact h.calls_of hrest
  | recheck =>
    obtain ⟨hcall, hstep⟩ := of_guard hstep
    cases hstep; exact h.recheck hcall.1 hcall.2 hcare
  | release t =>
    obtain ⟨_, hstep⟩ := of_guard hstep
    cases hstep
    exact h.shrink (h.sound.shrinks_release t) rfl rfl fun k _ hrel hk =>
      mem_release hrel hk
  | cancelPending s =>
    cases hstep
    refine h.shrink (h.sound.shrinks_cancelPending s) rfl rfl fun k hk hrel hmem => ?_
    change ((w.gate.cancelPending s).1.ticket k).released = false at hrel
    show k ∈ (w.gate.cancelPending s).1.lines (w.session k)
    rw [cancelPending_lines]
    split
    next hs =>
      have hrel' : (w.gate.ticket k).released = false := by
        rw [cancelPending_ticket] at hrel
        split at hrel <;> exact hrel
      rw [hs] at hmem
      exact mem_filter.2 ⟨hmem, hcare k hk hs hrel'⟩
    next => exact hmem
  | cancelBound c =>
    obtain ⟨_, hstep⟩ := of_guard hstep
    cases hstep; exact ⟨h.sound, h.calls, h.first, h.holds, h.order⟩

theorem held_initial : initial.Held :=
  ⟨sound_initial, nofun, nofun, nofun, .nil⟩

/-! ## The main result -/

/-- **Admission.** In every run no `admitted` channel is closed twice, and a ticket that was not stopped
is admitted once the tickets before it are released. In every run in which `CancelPending` cuts off no
holder and no `Wait` returns for a released ticket, at most one ticket of a session is held, and the
tickets whose `Wait` returned come in the order they were reserved. -/
theorem admission_exclusive_in_order (run : List Action) :
    Always step (fun w => w.gate.panicked = false ∧ w.Admits) initial run ∧
    (Along step Careful initial run →
      Always step (fun w => w.Exclusive ∧ w.InOrder) initial run) := by
  refine ⟨?_, ?_⟩
  · have hsound : Always step (fun w => w.gate.Sound) initial run :=
      .of_step (fun _ _ _ h hstep => sound_step h hstep) sound_initial
    exact hsound.mono fun _ h => ⟨h.ok, h.admits⟩
  · intro hcare
    have hheld : Always step Held initial run :=
      always_of_along (fun _ _ _ h hc hstep => held_step h hc hstep) held_initial hcare
    exact hheld.mono fun _ h => ⟨h.exclusive, h.order⟩

def waitSteps (t : Nat) (context : Option ContextID) : List Action :=
  [.wait t context false, .select ⟨t, context, .waiting⟩ .admitted false,
    .recheck ⟨t, context, .rechecking⟩ false]

/-- Two messages of a session that bind their contexts, and a stop while the first holds its ticket:
the second is stopped, and a third is admitted after both left. -/
def boundRun : List Action :=
  [.reserve 7, .bindContext 0, .reserve 7, .bindContext 1] ++ waitSteps 0 (some 0) ++
    [.cancelPending 7, .reserve 7, .release 0, .release 1] ++ waitSteps 2 none

/-- The run is careful, and ends with the third ticket held. -/
theorem admission_exclusive_in_order_bound :
    Along step Careful initial boundRun ∧
    Always step (fun w => w.Exclusive ∧ w.InOrder) initial boundRun ∧
    (exec step initial boundRun).map returned = some [0, 2] := by
  have hcare : Along step Careful initial boundRun := by decide +kernel
  exact ⟨hcare, (admission_exclusive_in_order boundRun).2 hcare, by decide +kernel⟩

def acquireRun : List Action :=
  .reserve 7 :: waitSteps 0 none ++ [.cancelPending 7, .reserve 7] ++ waitSteps 1 none

/-- **Two holders.** A ticket that was acquired without binding a context is dropped from its line by
`CancelPending` while it is held, and the next one is admitted beside it. -/
theorem acquire_after_cancelPending_holds_two :
    ¬ Always step (fun w => w.Exclusive ∧ w.InOrder) initial acquireRun := by
  refine not_always_of_exec (f := fun w => w.returned == [0, 1] &&
    !(w.gate.ticket 0).released && !(w.gate.ticket 1).released &&
    w.session 0 == w.session 1) ?_ (by decide +kernel)
  intro w hw h
  simp only [Bool.and_eq_true, Bool.not_eq_true', beq_iff_eq] at hw
  obtain ⟨⟨⟨hret, h0⟩, h1⟩, hs⟩ := hw
  have heq := h.1 0 1 ⟨by rw [hret]; decide, h0⟩ ⟨by rw [hret]; decide, h1⟩ hs
  cases heq

end Peen.Admission
