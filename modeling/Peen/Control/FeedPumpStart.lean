import Peen.Control.FeedPumpRuns

/-!
# Where the feed pump starts

The first signal of a session to arrive fixes where its delivery starts. `ListFeed` is an atomic
read in this module: no transaction commits while a call is under way.
-/

namespace Peen

open Keyed Lts PumpEntry Option List FeedCall PumpPC
open FeedPump (step)
open FeedTables

section
variable (install : UUID → Nat) (s : FeedPump)

def PumpPC.inListFeed : PumpPC → Bool
  | .listing _ _ => true
  | _ => false

/-- No commit happens during a `ListFeed` call. -/
def FeedPump.Atomic : PumpAction → Prop
  | .commit _ => ∀ sid, ∀ pc ∈ (s.sessions sid).goroutines, pc.inListFeed = false
  | _ => True

/-- The first signal of a session to arrive is the one of its first commit since the
installation. -/
def FeedPump.FirstInOrder : PumpAction → Prop
  | .signal i =>
    match s.pending[i]? with
    | some sig =>
      (s.sessions sig.sessionID).state = none → sig.first = install sig.sessionID + 1
    | none => True
  | _ => True

instance (install : UUID → Nat) (s : FeedPump) :
    (a : PumpAction) → Decidable (s.FirstInOrder install a)
  | .signal i => decidable_of_iff (∀ sig ∈ s.pending[i]?,
      (s.sessions sig.sessionID).state = none → sig.first = install sig.sessionID + 1)
      (by cases h : s.pending[i]? <;> simp [FeedPump.FirstInOrder, h])
  | .commit _ | .advance _ _ | .readFails _ _ | .panics _ _ | .cancel | .setSink
  | .watchAdmission _ _ | .stopWatch _ _ => .isTrue trivial

/-- The rows handed to the sink are contiguous, ascending and begin at the lowest row committed
since the installation; when nothing is on its way any more, they are all of these rows. -/
def FeedPump.FromInstallation : Prop :=
  ∀ sid, ∃ n, n ≤ s.db.feedHead sid ∧
    (s.sessions sid).handed.map FeedItem.row = s.db.between sid (install sid) n ∧
    ((∀ sig ∈ s.pending, sig.sessionID ≠ sid) → (s.sessions sid).goroutines = [] →
      n = s.db.feedHead sid)

/-- The queries of the calls under way have all seen the tables of now. -/
def FeedPump.Current : Prop :=
  ∀ sid call marks, listing call marks ∈ (s.sessions sid).goroutines →
    ∀ k, (call.reads k).isSome → marks k = s.db.feedHead call.query.sessionID

def FeedPump.Started : Prop :=
  ∀ sid, (s.sessions sid).state ≠ none → (s.sessions sid).start = install sid

end

variable {db : FeedTables}

section
variable {s : FeedPump}

/-! ## Atomic reads are not overtaken -/

variable {call : FeedCall}

theorem FeedCall.not_overtaken (hc : db.Contiguous) (hp : call.page db ≠ none)
    (hcur : ∀ k, (call.reads k).isSome → marks k = db.feedHead call.query.sessionID) :
    ¬ call.query.Overtaken db marks := by
  intro hov
  obtain ⟨r, hr, -, -, hlate, -⟩ := hov
  have hread : (call.reads r.kind).isSome := by
    cases call with
    | readSession | readEvents | readAgentRunEvents => exact absurd rfl hp
    | readNotices => cases r.kind <;> rfl
  have := (hc.bounds hr).2
  rw [FeedMarks.Late, hcur _ hread] at hlate
  omega

theorem FeedCall.mark_current (hc : db.Contiguous) (hr : call.read db = some call')
    (hcur : ∀ k, (call.reads k).isSome → marks k = db.feedHead call.query.sessionID) (k : FeedKind)
    (hk : (call'.reads k).isSome) : call.mark db marks k = db.feedHead call'.query.sessionID := by
  obtain ⟨k', hnext, hq, hrd⟩ := read_spec hc hr
  rw [hq]
  unfold mark
  split
  · rfl
  · next hne =>
    refine hcur k ?_
    rw [hrd, if_neg fun heq => hne (by rw [hnext, heq])] at hk
    exact hk

theorem PumpEntry.advance_listing {e : PumpEntry} {i : Nat}
    (ha : e.advance db ctxDone sink sid i = some e') (hm : listing call' marks' ∈ e'.goroutines) :
    listing call' marks' ∈ e.goroutines ∨ (∀ k, call'.reads k = none) ∨
      ∃ call marks, listing call marks ∈ e.goroutines ∧ call.read db = some call' ∧
        marks' = call.mark db marks := by
  obtain ⟨pc, f, hpc, rfl | ⟨pc', rfl, hlst⟩, hf⟩ := advance_cases ha
  · exact .inl (hf.goroutines ▸ mem_of_mem_eraseIdx hm)
  · rcases mem_or_eq_of_mem_set hm with h | h
    · exact .inl (hf.goroutines ▸ h)
    · rcases hlst _ _ h.symm with hnew | ⟨call, marks, rfl, hread⟩
      · exact .inr (.inl hnew)
      · exact .inr (.inr ⟨call, marks, mem_of_getElem? hpc, hread⟩)

theorem PumpEntry.signal_listing {e : PumpEntry}
    (hm : listing call marks ∈ (e.signal sig).goroutines) : listing call marks ∈ e.goroutines := by
  simp only [signal] at hm
  split at hm
  · exact hm
  · rcases mem_snoc.1 hm with h | h
    · exact h
    · cases h

/-- **Without commits during calls, every call under way stays current.** -/
theorem FeedPump.Current.step (h : s.Current) (hc : s.db.Contiguous) (hok : s.Succeeds a)
    (hat : s.Atomic a) (hs : s.step a = some s') : s'.Current := by
  obtain ⟨hkept, hdb | ⟨⟨body, rfl⟩, hsame⟩⟩ := FeedPump.entries_step
    (P := fun _ e => ∀ call marks, listing call marks ∈ e.goroutines →
      ∀ k, (call.reads k).isSome → marks k = s.db.feedHead call.query.sessionID) hs h
    (fun _ sig _ _ call marks hm => h _ call marks (signal_listing hm))
    (fun sid i e he call marks hm k hk => by
      rcases advance_listing he hm with hold | hnew | ⟨call0, marks0, hm0, hread, rfl⟩
      · exact h sid call marks hold k hk
      · rw [hnew k] at hk; cases hk
      · exact mark_current hc hread (h sid call0 marks0 hm0) k hk)
    fun _ _ _ hno => absurd hok hno
  · unfold FeedPump.Current
    rw [hdb]
    exact hkept
  · intro sid call marks hm
    rw [hsame] at hm
    cases hat sid _ hm

theorem FeedPump.Current.notOvertaken (h : s.Current) (hc : s.db.Contiguous) :
    s.NotOvertaken a := by
  cases a with
  | advance sid i =>
    simp only [FeedPump.NotOvertaken]
    split
    · next call marks hget =>
      intro hp
      exact not_overtaken hc hp (h sid call marks (mem_of_getElem? hget))
    · trivial
  | commit | signal | readFails | panics | cancel | setSink | watchAdmission | stopWatch =>
    trivial

/-! ## The start position -/

theorem FeedPump.Started.step (h : s.Started install) (hinv : s.Inv install)
    (hok : s.Succeeds a) (hfst : s.FirstInOrder install a) (hs : s.step a = some s') :
    s'.Started install := by
  refine (FeedPump.entries_step (P := fun sid e => e.state ≠ none → e.start = install sid) hs h
    (fun i sig ha hsig _ => ?_) (fun sid i e he _ => ?_) fun _ _ _ hno => absurd hok hno).1
  · have hsta : ((s.sessions sig.sessionID).signal sig).start =
        if ((s.sessions sig.sessionID).state.getD {}).initialized
          then (s.sessions sig.sessionID).start else sig.first - 1 := by
      simp only [signal]
      split <;> rfl
    have hent := hinv.entries sig.sessionID
    rw [hsta]
    cases hst : (s.sessions sig.sessionID).state with
    | none =>
      subst ha
      simp only [FeedPump.FirstInOrder, hsig] at hfst
      have := hfst hst
      show sig.first - 1 = _
      omega
    | some st =>
      have hi : st.initialized = true := by
        cases hent with
        | fresh hs hg hr hh => rw [hst] at hs; cases hs
        | idle st' hs hi hr hg hu hcov => rw [hst] at hs; cases hs; exact hi
        | busy st' pc hs hi hr hg hpc => rw [hst] at hs; cases hs; exact hi
      rw [getD_some, if_pos hi]
      exact h _ (by rw [hst]; simp)
  · rw [(advance_returned he).2]
    refine h sid fun hst => ?_
    -- a goroutine only moves on in a session that has an entry
    rw [advance, hst] at he
    cases he

theorem FeedPump.Inv.quiet (h : s.Inv install) {n : Nat} (hn : install sid ≤ n)
    (hq : ∀ sig ∈ s.pending, sig.sessionID ≠ sid)
    (hret : ∀ sig ∈ (s.sessions sid).returned, sig.last ≤ n) : s.db.feedHead sid ≤ n := by
  by_contra hlt
  rcases h.account sid (s.db.feedHead sid) (by omega) (Nat.le_refl _) with
    ⟨sig, hsig, hsid, -⟩ | ⟨sig, hsig, -, hle⟩
  · exact hq sig hsig hsid
  · have := hret sig hsig
    omega

theorem FeedPump.Inv.fromInstallation (h : s.Inv install) (hst : s.Started install) :
    s.FromInstallation install := by
  intro sid
  have hbusy : ∀ n, (s.sessions sid).UpTo s.db sid n → (s.sessions sid).state ≠ none →
      (s.sessions sid).goroutines ≠ [] → ∃ n, n ≤ s.db.feedHead sid ∧
        (s.sessions sid).handed.map FeedItem.row = s.db.between sid (install sid) n ∧
        ((∀ sig ∈ s.pending, sig.sessionID ≠ sid) → (s.sessions sid).goroutines = [] →
          n = s.db.feedHead sid) := by
    intro n hu hne hg
    exact ⟨n, hu.head, by rw [← hst sid hne]; exact hu.handed, fun _ hnil => absurd hnil hg⟩
  cases h.entries sid with
  | fresh hs hg hr hh =>
    refine ⟨install sid, h.installed sid, by rw [hh, between_self]; rfl,
      fun hq _ => Nat.le_antisymm (h.installed sid) ?_⟩
    exact h.quiet (Nat.le_refl _) hq fun sig hsig => by rw [hr] at hsig; cases hsig
  | idle st hs hi hr hg hu hcov =>
    have hsta := hst sid (by rw [hs]; simp)
    refine ⟨st.lastPublished, hu.head, by rw [← hsta]; exact hu.handed,
      fun hq _ => Nat.le_antisymm hu.head ?_⟩
    refine h.quiet (hsta ▸ hu.start) hq fun sig hsig => ?_
    rcases hcov sig hsig with hle | habs
    · exact hle
    · cases habs
  | busy st pc hs hi hr hg hpc =>
    have hne : (s.sessions sid).state ≠ none := by rw [hs]; simp
    have hg' : (s.sessions sid).goroutines ≠ [] := by rw [hg]; simp
    cases pc with
    | loop | runOnce => exact hbusy _ hpc hne hg'
    | listFeed | listing | deliver | delivered => exact hbusy _ hpc.1 hne hg'

end

/-- **The pump delivers from the installation on.** In every run with atomic and successful reads in
which the first signal of a session to arrive is the one of its first commit, the rows handed to
the sink are at every moment the contiguous ascending rows from the lowest one committed since the
installation, none skipped and none twice, and all of them once nothing is on its way any more. -/
theorem feedPump_starts_at_installation (db : FeedTables) (hc : db.Contiguous)
    (as : List PumpAction) (hruns : Along step
      (fun s a => s.Succeeds a ∧ s.Atomic a ∧ s.FirstInOrder db.feedHead a) (.installed db) as) :
    Always step (FeedPump.FromInstallation db.feedHead) (.installed db) as := by
  have hinit : (FeedPump.installed db).Inv db.feedHead ∧ (FeedPump.installed db).Current ∧
      (FeedPump.installed db).Started db.feedHead :=
    ⟨FeedPump.inv_installed hc, fun _ _ _ h => (by cases h), fun _ h => absurd rfl h⟩
  have hinv := always_of_along (I := fun s : FeedPump => s.Inv db.feedHead ∧ s.Current ∧
    s.Started db.feedHead) (fun s a s' hI hC hs => ?_) hinit hruns
  · exact hinv.mono fun s hI => hI.1.fromInstallation hI.2.2
  · obtain ⟨hI, hcur, hst⟩ := hI
    obtain ⟨hok, hat, hfirst⟩ := hC
    exact ⟨hI.step hok (hcur.notOvertaken hI.contiguous) hs, hcur.step hI.contiguous hok hat hs,
      hst.step hI hok hfirst hs⟩

theorem FeedPump.along_atomic (h : ∀ a ∈ as, ∀ body, a ≠ .commit body) (s : FeedPump) :
    Along step FeedPump.Atomic s as := by
  induction as generalizing s with
  | nil => trivial
  | cons a as ih =>
    intro s' _
    refine ⟨?_, ih (fun b hb => h b (mem_cons_of_mem _ hb)) s'⟩
    cases a with
    | commit body => exact absurd rfl (h _ mem_cons_self body)
    | signal | advance | readFails | panics | cancel | setSink | watchAdmission | stopWatch =>
      trivial

theorem FeedPump.along_atomic_installed (h : ∀ a ∈ as, ∀ body, a ≠ .commit body) :
    Along step FeedPump.Atomic (.installed db) (.commit body :: .commit body' :: as) := by
  intro s' hs'
  refine ⟨fun _ _ h => (by cases h), fun s'' _ => ⟨?_, FeedPump.along_atomic h s''⟩⟩
  simp only [step] at hs'
  split at hs' <;> cases hs' <;> exact fun _ _ h => (by cases h)

/-- Two commits of session 1, the signals of which arrive in the other order, and the steps of the
goroutines they start. -/
def signalsSwapped : List PumpAction :=
  [.commit [.events 1 [anEvent]], .commit [.notice 1 aNotice], .signal 1] ++
    replicate 9 (.advance 1 0) ++ [.signal 0] ++ replicate 9 (.advance 1 0)

/-- The event is committed first, the notice's signal arrives first: the sink gets the notice only,
and nothing is on its way any more. -/
theorem feedPump_skips_earlier_commit :
    oneSession.Contiguous ∧
    Along step (fun s a => s.Succeeds a ∧ s.Atomic a) (.installed .oneSession)
      signalsSwapped ∧
    ((exec step (.installed .oneSession) signalsSwapped).map fun s =>
      ((s.sessions 1).handed.map FeedItem.sequence, s.pending, (s.sessions 1).goroutines.length,
        s.db.feedHead 1)) = some ([2], [], 0, 2) ∧
    ¬ Always step (FeedPump.FromInstallation oneSession.feedHead)
      (.installed .oneSession) signalsSwapped := by
  refine ⟨oneSession_contiguous, Along.and (by decide +kernel)
    (FeedPump.along_atomic_installed (by simp)), by decide +kernel, ?_⟩
  refine not_always_of_exec (f := fun s => s.pending = [] ∧ (s.sessions 1).goroutines.length = 0 ∧
    (s.sessions 1).handed.map FeedItem.row ≠ s.db.between 1 0 (s.db.feedHead 1))
    (fun s hs hP => ?_) (by decide +kernel)
  obtain ⟨hp, hg, hne⟩ := of_decide_eq_true hs
  obtain ⟨n, -, heq, hn⟩ := hP 1
  rw [hn (by rw [hp]; simp) (length_eq_zero_iff.1 hg)] at heq
  exact hne heq

/-- In order, both rows are handed over. -/
theorem feedPump_starts_at_installation_in_order :
    oneSession.Contiguous ∧
    Always step (FeedPump.FromInstallation oneSession.feedHead) (.installed .oneSession)
      ([.commit [.events 1 [anEvent], .notice 1 aNotice], .signal 0] ++
        replicate 9 (.advance 1 0)) := by
  refine ⟨oneSession_contiguous, feedPump_starts_at_installation _
    oneSession_contiguous _ (Along.and (by decide +kernel) (Along.and ?_ ?_))⟩
  · exact fun s' _ => ⟨fun _ _ h => (by cases h), FeedPump.along_atomic (by simp) s'⟩
  · decide +kernel

end Peen
