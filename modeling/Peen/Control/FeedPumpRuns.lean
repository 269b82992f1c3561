import Peen.Control.FeedPump

/-!
# What the feed pump delivers

At every place of a session's goroutine a returned signal is covered by the cursor, by the read
under way, or the `dirty` flag is set (`PumpEntry.Inv`).
-/

namespace Peen

open Keyed Lts PumpEntry List FeedTables
open FeedPumpSession (setStart)
open FeedItem
open Option (bind_eq_bind bind_eq_some_iff)

theorem mem_eraseIdx_of_ne {α : Type} {l : List α} {i : Nat} {a b : α} (ha : l[i]? = some a)
    (hb : b ∈ l) (hne : b ≠ a) : b ∈ l.eraseIdx i := by
  obtain ⟨j, hj⟩ := mem_iff_getElem?.1 hb
  refine mem_eraseIdx_iff_getElem?.2 ⟨j, fun hij => hne ?_, hj⟩
  subst hij
  rw [ha] at hj
  cases hj
  rfl

theorem FeedCall.start_reads {cursor limit : Int}
    (h : FeedCall.start db sid cursor limit = .ok call) (k : FeedKind) : call.reads k = none := by
  unfold start at h
  split at h
  · cases h
  · split at h
    · cases h
    · cases h; rfl

/-! ## One goroutine per session -/

@[simp] theorem FeedPumpSession.setStart_running (st : FeedPumpSession) (first : Nat) :
    (st.setStart first).running = st.running := by
  unfold setStart
  split <;> rfl

/-- A session has at most one goroutine, and none unless it is marked running. -/
structure PumpEntry.Single (e : PumpEntry) : Prop where
  one : e.goroutines.length ≤ 1
  running : e.goroutines ≠ [] → ∃ st, e.state = some st ∧ st.running = true

section
variable {e : PumpEntry} {i : Nat}

theorem PumpEntry.Single.eq (h : e.Single) (hi : e.goroutines[i]? = some pc) :
    i = 0 ∧ e.goroutines = [pc] := by
  obtain ⟨hlt, hget⟩ := List.getElem?_eq_some_iff.1 hi
  have := h.one
  obtain ⟨x, hx⟩ := length_eq_one_iff.1 (show e.goroutines.length = 1 by omega)
  have h0 : i = 0 := by omega
  subst h0
  simp only [hx, getElem_cons_zero] at hget
  exact ⟨rfl, by rw [hx, hget]⟩

theorem PumpEntry.Single.stop (h : e.Single) (hi : e.goroutines[i]? = some pc) :
    (e.stop i).Single := by
  obtain ⟨rfl, hg⟩ := h.eq hi
  have hnil : (e.stop 0).goroutines = [] := by rw [stop, hg]; rfl
  exact ⟨by rw [hnil]; decide, fun hne => absurd hnil hne⟩

theorem PumpEntry.Single.goto (h : e.Single) (pc' : PumpPC) : (e.goto i pc').Single := by
  refine ⟨by simpa [PumpEntry.goto] using h.one, fun hne => h.running fun hnil => hne ?_⟩
  simp [PumpEntry.goto, hnil]

theorem PumpEntry.Single.signal (h : e.Single) (sig : FeedSignal) : (e.signal sig).Single := by
  have hidle : (e.state.getD {}).running = false → e.goroutines = [] := by
    intro hr
    by_contra hne
    obtain ⟨st, hst, hrun⟩ := h.running hne
    rw [hst, Option.getD_some, hrun] at hr
    cases hr
  simp only [PumpEntry.signal, FeedPumpSession.setStart_running]
  split
  · next hr => exact ⟨h.one, fun _ => ⟨_, rfl, hr⟩⟩
  · next hr =>
    have hnil := hidle (by simpa using hr)
    exact ⟨by simp [hnil], fun _ => ⟨_, rfl, rfl⟩⟩

/-- What a step of a goroutine leaves as it is: all but the cursor and what the sink has. -/
structure PumpEntry.Same (e f : PumpEntry) : Prop where
  returned : f.returned = e.returned
  start : f.start = e.start
  goroutines : f.goroutines = e.goroutines
  running : ∀ st, e.state = some st → ∃ st', f.state = some st' ∧ st'.running = st.running

/-- **What a step of a goroutine can do**: it ends or moves on. It comes to a `ListFeed` call that
has made no query, or makes the next query of its call. -/
theorem PumpEntry.advance_cases (ha : e.advance db ctxDone sink sid i = some e') :
    ∃ pc f, e.goroutines[i]? = some pc ∧ (e' = f.stop i ∨ ∃ pc', e' = f.goto i pc' ∧
      ∀ call' marks', pc' = .listing call' marks' → (∀ k, call'.reads k = none) ∨
        ∃ call marks, pc = .listing call marks ∧ call.read db = some call' ∧
          marks' = call.mark db marks) ∧ e.Same f := by
  simp only [advance, bind_eq_bind, bind_eq_some_iff] at ha
  obtain ⟨st, hst, pc, hpc, ha⟩ := ha
  have hsame : e.Same e := ⟨rfl, rfl, rfl, fun st h => ⟨st, h, rfl⟩⟩
  have hstate {st'} (hr : st'.running = st.running) : e.Same { e with state := some st' } := by
    refine ⟨rfl, rfl, rfl, fun st0 h => ⟨st', rfl, ?_⟩⟩
    rw [hst] at h
    cases h
    exact hr
  refine ⟨pc, ?_⟩
  cases pc with
  | loop =>
    cases ha
    refine ⟨e, hpc, ?_, hsame⟩
    split
    · exact .inl rfl
    · exact .inr ⟨_, rfl, by simp⟩
  | runOnce =>
    cases ha
    exact ⟨e, hpc, .inr ⟨_, rfl, by simp⟩, hsame⟩
  | listFeed c =>
    refine ⟨e, hpc, ?_, hsame⟩
    dsimp only at ha
    split at ha
    · cases ha; exact .inl rfl
    next hcall =>
      cases ha
      refine .inr ⟨_, rfl, fun call' marks' h => .inl ?_⟩
      cases h
      exact FeedCall.start_reads hcall
  | listing call marks =>
    refine ⟨e, hpc, ?_, hsame⟩
    dsimp only at ha
    split at ha
    next hread =>
      cases ha
      refine .inr ⟨_, rfl, fun call' marks' h => .inr ⟨call, marks, rfl, ?_⟩⟩
      cases h
      exact ⟨hread, rfl⟩
    · cases ha; exact .inr ⟨_, rfl, by simp⟩
    · cases ha
  | deliver page =>
    cases ha
    exact ⟨_, hpc, .inr ⟨_, rfl, by simp⟩, rfl, rfl, rfl, hsame.running⟩
  | delivered page =>
    cases ha
    simp only [finish]
    split
    · exact ⟨_, hpc, .inr ⟨_, rfl, by simp⟩, hstate rfl⟩
    · split
      · exact ⟨_, hpc, .inr ⟨_, rfl, by simp⟩, hstate rfl⟩
      · exact ⟨_, hpc, .inl rfl, hstate rfl⟩

theorem PumpEntry.advance_returned (ha : e.advance db ctxDone sink sid i = some e') :
    e'.returned = e.returned ∧ e'.start = e.start := by
  obtain ⟨pc, f, _, rfl | ⟨pc', rfl, _⟩, hf⟩ := advance_cases ha
  · exact ⟨hf.returned, hf.start⟩
  · exact ⟨hf.returned, hf.start⟩

theorem PumpEntry.Single.advance (h : e.Single) (ha : e.advance db ctxDone sink sid i = some e') :
    e'.Single := by
  obtain ⟨pc, f, hpc, he, hf⟩ := advance_cases ha
  have hfs : f.Single := by
    refine ⟨hf.goroutines ▸ h.one, fun hne => ?_⟩
    obtain ⟨st, hst, hrun⟩ := h.running (hf.goroutines ▸ hne)
    obtain ⟨st', hst', hr⟩ := hf.running st hst
    exact ⟨st', hst', hr.trans hrun⟩
  rcases he with rfl | ⟨pc', rfl, _⟩
  · exact hfs.stop (hf.goroutines ▸ hpc)
  · exact hfs.goto pc'

end

/-! ## What a session has handed over -/

/-- The sink has the rows from the session's start to `c`, each once and in order. -/
structure PumpEntry.UpTo (db : FeedTables) (sid : UUID) (e : PumpEntry) (c : Nat) : Prop where
  start : e.start ≤ c
  head : c ≤ db.feedHead sid
  handed : e.handed.map row = db.between sid e.start c

/-- Every returned signal is below `n`, or another read will follow. -/
def PumpEntry.Covered (e : PumpEntry) (again : Bool) (n : Nat) : Prop :=
  ∀ sig ∈ e.returned, sig.last ≤ n ∨ again = true

def PumpPC.Inv (db : FeedTables) (sid : UUID) (e : PumpEntry) (st : FeedPumpSession) : PumpPC → Prop
  | .loop => e.UpTo db sid st.lastPublished
  | .runOnce => e.UpTo db sid st.lastPublished
  | .listFeed cursor => e.UpTo db sid st.lastPublished ∧ cursor = st.lastPublished
  | .listing call marks =>
    e.UpTo db sid st.lastPublished ∧ call.Saw db marks ∧ call.query.sessionID = sid ∧
      call.query.cursor = st.lastPublished ∧ e.Covered st.dirty call.query.head
  | .deliver page =>
    e.UpTo db sid st.lastPublished ∧ st.lastPublished ≤ page.nextCursor ∧
      page.nextCursor ≤ db.feedHead sid ∧
      page.items.map row = db.between sid st.lastPublished page.nextCursor ∧
      e.Covered (page.hasMore || st.dirty) page.nextCursor
  | .delivered page =>
    e.UpTo db sid page.nextCursor ∧ e.Covered (page.hasMore || st.dirty) page.nextCursor

/-- What holds of a session's entry: nothing has happened yet, or it is idle and every returned
signal is covered by the cursor, or its one goroutine is under way. -/
inductive PumpEntry.Inv (db : FeedTables) (sid : UUID) (e : PumpEntry) : Prop
  | fresh (state : e.state = none) (goroutines : e.goroutines = []) (returned : e.returned = [])
      (handed : e.handed = [])
  | idle (st : FeedPumpSession) (state : e.state = some st) (init : st.initialized = true)
      (running : st.running = false) (goroutines : e.goroutines = [])
      (upTo : e.UpTo db sid st.lastPublished) (covered : e.Covered false st.lastPublished)
  | busy (st : FeedPumpSession) (pc : PumpPC) (state : e.state = some st)
      (init : st.initialized = true) (running : st.running = true)
      (goroutines : e.goroutines = [pc]) (pcInv : pc.Inv db sid e st)

section
variable {db' : FeedTables} {e : PumpEntry} {i : Nat}

namespace PumpEntry

theorem UpTo.extend {c : Nat} (h : e.UpTo db sid c) (hc : db.Contiguous)
    (hc' : db'.Contiguous) (he : db.Extends db') : e.UpTo db' sid c :=
  ⟨h.start, h.head.trans (he.head sid), by rw [he.between_eq hc hc' (.inl h.head), h.handed]⟩

theorem Inv.extend (h : e.Inv db sid) (hc : db.Contiguous) (hc' : db'.Contiguous)
    (he : db.Extends db') : e.Inv db' sid := by
  cases h with
  | fresh hs hg hr hh => exact .fresh hs hg hr hh
  | idle st hs hi hr hg hu hcov => exact .idle st hs hi hr hg (hu.extend hc hc' he) hcov
  | busy st pc hs hi hr hg hpc =>
    refine .busy st pc hs hi hr hg ?_
    cases pc with
    | loop | runOnce => exact UpTo.extend hpc hc hc' he
    | listFeed c => exact ⟨hpc.1.extend hc hc' he, hpc.2⟩
    | listing =>
      obtain ⟨hu, hsaw, hrest⟩ := hpc
      exact ⟨hu.extend hc hc' he, hsaw.extend hc hc' he, hrest⟩
    | deliver page =>
      obtain ⟨hu, hle, hhead, hit, hcov⟩ := hpc
      exact ⟨hu.extend hc hc' he, hle, hhead.trans (he.head sid),
        by rw [he.between_eq hc hc' (.inl hhead), hit], hcov⟩
    | delivered page => exact ⟨hpc.1.extend hc hc' he, hpc.2⟩

/-- **A signal is never forgotten.** It starts the goroutine or leaves `dirty` behind. -/
theorem Inv.signal (h : e.Inv db sid) {sig : FeedSignal}
    (hle : sig.first ≤ db.feedHead sid) : (e.signal sig).Inv db sid := by
  cases h with
  | fresh hs hg hr hh =>
    refine .busy ⟨sig.first - 1, true, true, false⟩ .loop ?_ rfl rfl ?_ ?_
    · simp [PumpEntry.signal, hs, setStart]
    · simp [PumpEntry.signal, hs, hg]
    · have hsta : (e.signal sig).start = sig.first - 1 := by simp [PumpEntry.signal, hs]
      have hhanded : (e.signal sig).handed = [] := by simp [PumpEntry.signal, hs, hh]
      refine ⟨hsta.le, by dsimp only; omega, ?_⟩
      rw [hhanded, hsta, between_self]
      rfl
  | idle st hs hi hr hg hu hcov =>
    have heq : e.signal sig = { e with
        returned := e.returned ++ [sig], state := some { st with running := true },
        goroutines := [.loop] } := by
      simp [PumpEntry.signal, setStart, hs, hi, hr, hg]
    rw [heq]
    exact .busy { st with running := true } .loop rfl hi rfl rfl ⟨hu.start, hu.head, hu.handed⟩
  | busy st pc hs hi hr hg hpc =>
    have heq : e.signal sig = { e with
        returned := e.returned ++ [sig], state := some { st with dirty := true } } := by
      simp [PumpEntry.signal, setStart, hs, hi, hr]
    rw [heq]
    refine .busy { st with dirty := true } pc rfl hi hr hg ?_
    have hup : ∀ c, e.UpTo db sid c → PumpEntry.UpTo db sid { e with
        returned := e.returned ++ [sig], state := some { st with dirty := true } } c :=
      fun c h => ⟨h.start, h.head, h.handed⟩
    cases pc with
    | loop | runOnce => exact hup _ hpc
    | listFeed c => exact ⟨hup _ hpc.1, hpc.2⟩
    | listing =>
      obtain ⟨hu, hsaw, hsid, hcur, -⟩ := hpc
      exact ⟨hup _ hu, hsaw, hsid, hcur, fun _ _ => .inr rfl⟩
    | deliver page =>
      obtain ⟨hu, hle, hhead, hit, -⟩ := hpc
      exact ⟨hup _ hu, hle, hhead, hit, fun _ _ => .inr (Bool.or_true _)⟩
    | delivered page => exact ⟨hup _ hpc.1, fun _ _ => .inr (Bool.or_true _)⟩

theorem Inv.single (h : e.Inv db sid) : e.Single := by
  cases h with
  | fresh hs hg hr hh => exact ⟨by simp [hg], fun hne => absurd hg hne⟩
  | idle st hs hi hr hg hu hcov => exact ⟨by simp [hg], fun hne => absurd hg hne⟩
  | busy st pc hs hi hr hg hpc => exact ⟨by simp [hg], fun _ => ⟨st, hs, hr⟩⟩

theorem Inv.under_way (h : e.Inv db sid) (hpc : e.goroutines[i]? = some pc) :
    i = 0 ∧ e.goroutines = [pc] ∧ ∃ st, e.state = some st ∧ st.initialized = true ∧
      st.running = true ∧ pc.Inv db sid e st := by
  obtain ⟨hi, hg⟩ := h.single.eq hpc
  refine ⟨hi, hg, ?_⟩
  cases h with
  | fresh hs hg' hr hh | idle st hs hi hr hg' hu hcov => rw [hg'] at hg; cases hg
  | busy st pc' hs hi hr hg' hpc' =>
    rw [hg'] at hg
    cases hg
    exact ⟨st, hs, hi, hr, hpc'⟩

theorem Inv.goto {pc' : PumpPC} (hs : e.state = some st) (hi : st.initialized = true)
    (hr : st.running = true) (hg : e.goroutines = [pc]) (hpc : pc'.Inv db sid (e.goto 0 pc') st) :
    (e.goto 0 pc').Inv db sid :=
  .busy st pc' hs hi hr (by rw [PumpEntry.goto, hg]; rfl) hpc

theorem Covered.page {call : FeedCall} {page : FeedPage}
    (h : e.Covered dirty call.query.head) (hsaw : call.Saw db marks) (hc : db.Contiguous)
    (hp : call.page db = some page) : e.Covered (page.hasMore || dirty) page.nextCursor := by
  intro sig hsig
  rcases h sig hsig with hle | hd
  · cases hm : page.hasMore with
    | true => exact .inr rfl
    | false => exact .inl (hle.trans (hsaw.head_le_nextCursor hc hp hm))
  · exact .inr (by rw [hd, Bool.or_true])

/-- **The lock that ends `runOnce` stops the goroutine only when every returned signal is
covered.** -/
theorem Inv.finish {st : FeedPumpSession} (hi : st.initialized = true)
    (hr : st.running = true) (hg : e.goroutines = [.delivered page])
    (hpc : (PumpPC.delivered page).Inv db sid e st) : (e.finish 0 page st).Inv db sid := by
  obtain ⟨hu, hcov⟩ := hpc
  simp only [PumpEntry.finish]
  split
  · exact Inv.goto rfl hi hr hg ⟨hu.start, hu.head, hu.handed⟩
  · next hm =>
    split
    · exact Inv.goto rfl hi hr hg ⟨hu.start, hu.head, hu.handed⟩
    · next hd =>
      refine .idle { st with lastPublished := page.nextCursor, running := false } rfl hi rfl ?_
        ⟨hu.start, hu.head, hu.handed⟩ fun sig hsig => ?_
      · simp [stop, hg]
      · refine (hcov sig hsig).imp id fun h => ?_
        rcases Bool.or_eq_true_iff.1 h with h | h
        · exact absurd h hm
        · exact absurd h hd

theorem Inv.advance (h : e.Inv db sid) (hc : db.Contiguous)
    (hret : ∀ sig ∈ e.returned, sig.last ≤ db.feedHead sid)
    (hok : ∀ c, e.goroutines[i]? = some (.listFeed c) →
      ∃ call, FeedCall.start db sid c feedPumpPageLimit = .ok call)
    (hno : ∀ call marks, e.goroutines[i]? = some (.listing call marks) → call.page db ≠ none →
      ¬ call.query.Overtaken db marks)
    (ha : e.advance db false true sid i = some e') : e'.Inv db sid := by
  simp only [PumpEntry.advance, bind_eq_bind, bind_eq_some_iff] at ha
  obtain ⟨st, hst, pc, hget, ha⟩ := ha
  obtain ⟨rfl, hg, st', hst', hi, hr, hpc⟩ := h.under_way hget
  rw [hst] at hst'
  cases hst'
  cases pc with
  | loop =>
    cases ha
    exact PumpEntry.Inv.goto hst hi hr hg ⟨hpc.start, hpc.head, hpc.handed⟩
  | runOnce =>
    cases ha
    exact PumpEntry.Inv.goto hst hi hr hg ⟨⟨hpc.start, hpc.head, hpc.handed⟩, rfl⟩
  | listFeed c =>
    obtain ⟨hu, rfl⟩ := hpc
    obtain ⟨call, hcall⟩ := hok _ hget
    simp only [hcall] at ha
    cases ha
    obtain ⟨hsaw, hsid, hcur, -, hhead⟩ := FeedCall.saw_start (fun _ => 0) hcall
    refine PumpEntry.Inv.goto hst hi hr hg ⟨⟨hu.start, hu.head, hu.handed⟩, hsaw, hsid,
      by exact_mod_cast hcur, fun sig hsig => .inl ?_⟩
    rw [hhead]
    exact hret sig hsig
  | listing call marks =>
    obtain ⟨hu, hsaw, hsid, hcur, hcov⟩ := hpc
    cases hread : call.read db with
    | some call' =>
      simp only [hread] at ha
      cases ha
      obtain ⟨hsaw', hq⟩ := hsaw.read hc hread
      exact PumpEntry.Inv.goto hst hi hr hg ⟨⟨hu.start, hu.head, hu.handed⟩, hsaw', hq ▸ hsid,
        hq ▸ hcur, hq ▸ hcov⟩
    | none =>
      cases hpage : call.page db with
      | none => simp only [hread, hpage] at ha; cases ha
      | some page =>
        simp only [hread, hpage] at ha
        cases ha
        have hexact := (hsaw.exact_iff hc hpage).2 (hno _ _ hget (by rw [hpage]; simp))
        have hle := hsaw.cursor_le hc hpage
        rw [hsid, hcur] at hexact
        rw [hcur] at hle
        refine PumpEntry.Inv.goto hst hi hr hg ⟨⟨hu.start, hu.head, hu.handed⟩, hle, ?_, hexact,
          hcov.page hsaw hc hpage⟩
        rcases hsaw.nextCursor hc hpage with ⟨-, hn⟩ | ⟨t, ht, hn⟩
        · rw [hn, hcur]; exact hu.head
        · have := (hc.bounds (hsaw.mem_items hc hpage ht).1).2
          rw [hsid] at this
          exact hn ▸ this
  | deliver page =>
    obtain ⟨hu, hle, hhead, hit, hcov⟩ := hpc
    cases ha
    refine PumpEntry.Inv.goto (e := { e with handed := _ }) hst hi hr hg
      ⟨⟨hu.start.trans hle, hhead, ?_⟩, hcov⟩
    simp only [PumpEntry.goto, if_true, map_append, hu.handed, hit]
    exact hc.between_append sid hu.start hle
  | delivered page =>
    cases ha
    exact PumpEntry.Inv.finish hi hr hg hpc

end PumpEntry

end

/-! ## Runs of the pump -/

/-- The action is a commit, a signal or a step of the pump in which a read succeeds: no read fails,
no sink panics, the service goes on. -/
def FeedPump.Succeeds (s : FeedPump) : PumpAction → Prop
  | .readFails .. | .panics .. | .cancel => False
  | .advance sid i =>
    match (s.sessions sid).goroutines[i]? with
    | some (.listFeed c) => (FeedCall.start s.db sid c feedPumpPageLimit).isOk = true
    | _ => True
  | _ => True

/-- The action does not return a page from an overtaken `ListFeed` call. -/
def FeedPump.NotOvertaken (s : FeedPump) : PumpAction → Prop
  | .advance sid i =>
    match (s.sessions sid).goroutines[i]? with
    | some (.listing call marks) => call.page s.db ≠ none → ¬ call.query.Overtaken s.db marks
    | _ => True
  | _ => True

instance (s : FeedPump) (a : PumpAction) : Decidable (s.Succeeds a) := by
  cases a <;> dsimp only [FeedPump.Succeeds]
  case advance => split <;> infer_instance
  all_goals infer_instance

instance (s : FeedPump) (a : PumpAction) : Decidable (s.NotOvertaken a) := by
  cases a <;> dsimp only [FeedPump.NotOvertaken]
  case advance => split <;> infer_instance
  all_goals infer_instance

/-- One goroutine for each session. -/
def FeedPump.AtMostOne (s : FeedPump) : Prop := ∀ sid, (s.sessions sid).goroutines.length ≤ 1

/-- Where no goroutine is active, every row after the session's start whose signal has returned was
handed to the sink. -/
def FeedPump.SignalledDelivered (s : FeedPump) : Prop :=
  ∀ sid, (s.sessions sid).goroutines = [] → ∀ sig ∈ (s.sessions sid).returned,
    ∀ r ∈ s.db.rows sid, sig.first ≤ r.sequence → r.sequence ≤ sig.last →
      (s.sessions sid).start < r.sequence → r ∈ (s.sessions sid).handed.map row

/-- What holds between any two actions of a run without failures: every session's invariant, and
every row committed since the installation belongs to a signal, on its way or returned. -/
structure FeedPump.Inv (install : UUID → Nat) (s : FeedPump) : Prop where
  contiguous : s.db.Contiguous
  ctx : s.ctxDone = false
  sink : s.sink = true
  installed : ∀ sid, install sid ≤ s.db.feedHead sid
  pending : ∀ sig ∈ s.pending, sig.first ≤ sig.last ∧ sig.last ≤ s.db.feedHead sig.sessionID
  returned : ∀ sid, ∀ sig ∈ (s.sessions sid).returned, sig.last ≤ s.db.feedHead sid
  entries : ∀ sid, (s.sessions sid).Inv s.db sid
  account : ∀ sid n, install sid < n → n ≤ s.db.feedHead sid →
    (∃ sig ∈ s.pending, sig.sessionID = sid ∧ sig.first ≤ n ∧ n ≤ sig.last) ∨
      ∃ sig ∈ (s.sessions sid).returned, sig.first ≤ n ∧ n ≤ sig.last

section
variable {s : FeedPump}

namespace FeedPump

theorem inv_installed {db : FeedTables} (hc : db.Contiguous) :
    (installed db).Inv db.feedHead :=
  ⟨hc, rfl, rfl, fun _ => Nat.le_refl _, fun _ h => (by cases h), fun _ _ h => (by cases h),
    fun _ => .fresh rfl rfl rfl rfl, fun _ _ h1 h2 => absurd h1 (Nat.not_lt.2 h2)⟩

@[simp] theorem setEntry_self (s : FeedPump) (sid : UUID) (e : PumpEntry) :
    (s.setEntry sid e).sessions sid = e := Function.update_self ..

theorem setEntry_of_ne (s : FeedPump) {sid sid' : UUID} (h : sid' ≠ sid)
    (e : PumpEntry) : (s.setEntry sid e).sessions sid' = s.sessions sid' :=
  Function.update_of_ne h ..

theorem report_eq (s : FeedPump) (sid : UUID) (i : Nat) :
    ∃ w a, s.report sid i = { s with admissionWatches := w, admitted := a } := by
  unfold report
  split
  · exact ⟨_, _, rfl⟩
  · exact ⟨s.admissionWatches, s.admitted, rfl⟩

theorem forall_setEntry {P : UUID → PumpEntry → Prop} (h : ∀ sid, P sid (s.sessions sid))
    {sid : UUID} {e : PumpEntry} (he : P sid e) (sid' : UUID) :
    P sid' ((s.setEntry sid e).sessions sid') := by
  by_cases heq : sid' = sid
  · subst heq
    rwa [setEntry_self]
  · rw [setEntry_of_ne _ heq]
    exact h sid'

theorem Inv.commit (h : s.Inv install) (hs : s.step (.commit body) = some s') : s'.Inv install := by
  simp only [step] at hs
  cases ht : feedTransaction s.db body with
  | error e => rw [ht] at hs; cases hs; exact h
  | ok r =>
    rw [ht] at hs
    cases hs
    obtain ⟨he, hc⟩ := feedTransaction_extends h.contiguous ht
    have hcov := feedTransaction_covers ht
    refine ⟨hc, h.ctx, h.sink, fun sid => (h.installed sid).trans (he.head sid),
      fun sig hsig => ?_, fun sid sig hsig => ?_, fun sid => ?_,
      fun sid n h1 h2 => ?_⟩
    · rcases mem_append.1 hsig with hsig | hsig
      · exact ⟨(h.pending sig hsig).1, (h.pending sig hsig).2.trans (he.head _)⟩
      · obtain ⟨p, hp, rfl⟩ := mem_map.1 hsig
        obtain ⟨h1, h2⟩ := hcov.first p hp
        exact ⟨by dsimp only; omega, Nat.le_refl _⟩
    · exact (h.returned sid sig hsig).trans (he.head sid)
    · exact (h.entries sid).extend h.contiguous hc he
    · rcases Nat.lt_or_ge (s.db.feedHead sid) n with hnew | hold
      · -- the row is new: its session's head moved, so the collector has an entry for it
        obtain ⟨p, hp, rfl⟩ := hcov.moved sid (Nat.lt_of_lt_of_le hnew h2)
        refine .inl ⟨_, mem_append_right _ (mem_map_of_mem hp), rfl, ?_, h2⟩
        rw [(hcov.first p hp).1]
        exact hnew
      · rcases h.account sid n h1 hold with ⟨sig, hsig, hrest⟩ | hret
        · exact .inl ⟨sig, mem_append_left _ hsig, hrest⟩
        · exact .inr hret

theorem Inv.signal (h : s.Inv install) {i : Nat} (hs : s.step (.signal i) = some s') :
    s'.Inv install := by
  simp only [step, bind_eq_bind, bind_eq_some_iff] at hs
  obtain ⟨sig, hsig, hs⟩ := hs
  cases hs
  have hmem := mem_of_getElem? hsig
  obtain ⟨hfl, hlh⟩ := h.pending sig hmem
  have hret : (s.sessions sig.sessionID).signal sig =
      { (s.sessions sig.sessionID).signal sig with
        returned := (s.sessions sig.sessionID).returned ++ [sig] } := by
    simp only [PumpEntry.signal]
    split <;> rfl
  refine ⟨h.contiguous, h.ctx, h.sink, h.installed,
    fun sg hsg => h.pending sg (mem_of_mem_eraseIdx hsg), ?_, ?_, fun sid n h1 h2 => ?_⟩
  · refine forall_setEntry (s := { s with pending := _ })
      (P := fun sid e => ∀ sg ∈ e.returned, sg.last ≤ s.db.feedHead sid) h.returned ?_
    intro sg hsg
    rw [hret] at hsg
    rcases mem_snoc.1 hsg with hsg | hsg
    · exact h.returned _ sg hsg
    · rw [hsg]; exact hlh
  · exact forall_setEntry (s := { s with pending := _ })
      (P := fun sid e => e.Inv s.db sid) h.entries ((h.entries _).signal (hfl.trans hlh))
  · by_cases hsid : sid = sig.sessionID
    · subst hsid
      rw [setEntry_self, hret]
      rcases h.account _ n h1 h2 with ⟨sg, hsg, hsid, hb⟩ | ⟨sg, hsg, hb⟩
      · by_cases heq : sg = sig
        · exact .inr ⟨sg, mem_append_right _ (by rw [heq]; simp), hb⟩
        · exact .inl ⟨sg, mem_eraseIdx_of_ne hsig hsg heq, hsid, hb⟩
      · exact .inr ⟨sg, mem_append_left _ hsg, hb⟩
    · rw [setEntry_of_ne _ hsid]
      rcases h.account sid n h1 h2 with ⟨sg, hsg, hs, hb⟩ | hr
      · exact .inl ⟨sg, mem_eraseIdx_of_ne hsig hsg fun heq => hsid (by rw [← hs, heq]), hs, hb⟩
      · exact .inr hr

end FeedPump

theorem FeedPump.Inv.advance (h : s.Inv install) {sid : UUID} {i : Nat}
    (hok : s.Succeeds (.advance sid i)) (hno : s.NotOvertaken (.advance sid i))
    (hs : s.step (.advance sid i) = some s') : s'.Inv install := by
  simp only [FeedPump.step, bind_eq_bind, bind_eq_some_iff] at hs
  obtain ⟨e, he, hs⟩ := hs
  obtain ⟨w, a, hrep⟩ := s.report_eq sid i
  rw [hrep] at hs
  cases hs
  rw [h.ctx, h.sink] at he
  have hret := (advance_returned he).1
  have hinv : e.Inv s.db sid := by
    refine (h.entries sid).advance h.contiguous (h.returned sid) (fun c hc => ?_)
      (fun call marks hc => ?_) he
    · simp only [FeedPump.Succeeds, hc] at hok
      cases hsta : FeedCall.start s.db sid c feedPumpPageLimit with
      | error err => rw [hsta] at hok; cases hok
      | ok call => exact ⟨call, rfl⟩
    · simp only [FeedPump.NotOvertaken, hc] at hno
      exact hno
  refine ⟨h.contiguous, h.ctx, h.sink, h.installed, h.pending, ?_, ?_, fun sid' n h1 h2 => ?_⟩
  · refine FeedPump.forall_setEntry (s := { s with admissionWatches := w, admitted := a })
      (P := fun sid e => ∀ sg ∈ e.returned, sg.last ≤ s.db.feedHead sid) h.returned ?_
    rw [hret]
    exact h.returned sid
  · exact FeedPump.forall_setEntry (s := { s with admissionWatches := w, admitted := a })
      (P := fun sid e => e.Inv s.db sid) h.entries hinv
  · have : ((FeedPump.setEntry { s with admissionWatches := w, admitted := a } sid e).sessions
        sid').returned = (s.sessions sid').returned := by
      by_cases hsid : sid' = sid
      · subst hsid; rw [FeedPump.setEntry_self, hret]
      · rw [FeedPump.setEntry_of_ne _ hsid]
    rw [this]
    exact h.account sid' n h1 h2

/-- **Every action of a run without failures keeps the invariant**, unless it returns a page from an
overtaken call. -/
theorem FeedPump.Inv.step (h : s.Inv install) {a : PumpAction} (hok : s.Succeeds a)
    (hno : s.NotOvertaken a) (hs : s.step a = some s') : s'.Inv install := by
  cases a with
  | commit body => exact h.commit hs
  | signal i => exact h.signal hs
  | advance sid i => exact h.advance hok hno hs
  | readFails | panics | cancel => exact hok.elim
  | setSink =>
    cases hs
    exact { h with sink := rfl }
  | watchAdmission =>
    cases hs
    exact { h with }
  | stopWatch =>
    simp only [FeedPump.step] at hs
    split at hs
    · cases hs
      exact { h with }
    · cases hs
      exact h

theorem FeedPump.Inv.signalledDelivered (h : s.Inv install) : s.SignalledDelivered := by
  intro sid hg sig hsig r hr h1 h2 h3
  cases h.entries sid with
  | fresh hs hg' hret hh => rw [hret] at hsig; cases hsig
  | idle st hs hi hrun hg' hu hcov =>
    rw [hu.handed]
    rcases hcov sig hsig with hle | habs
    · exact mem_between.2 ⟨hr, h3, h2.trans hle⟩
    · cases habs
  | busy st pc hs hi hrun hg' hpc => rw [hg'] at hg; cases hg

/-- **What a step does to the entries.** What holds of all of them, and is kept by a signal, by a
goroutine that moves on and by one that a failure stops, holds after the step; and a commit leaves
the entries alone. -/
theorem FeedPump.entries_step {P : UUID → PumpEntry → Prop} {a : PumpAction}
    (hs : s.step a = some s') (h : ∀ sid, P sid (s.sessions sid))
    (hsig : ∀ i sig, a = .signal i → s.pending[i]? = some sig →
      P sig.sessionID ((s.sessions sig.sessionID).signal sig))
    (hadv : ∀ sid i e, (s.sessions sid).advance s.db s.ctxDone s.sink sid i = some e → P sid e)
    (hstop : ∀ sid i pc, ¬ s.Succeeds a → (s.sessions sid).goroutines[i]? = some pc →
      P sid ((s.sessions sid).stop i)) :
    (∀ sid, P sid (s'.sessions sid)) ∧
      (s'.db = s.db ∨ (∃ body, a = .commit body) ∧ s'.sessions = s.sessions) := by
  cases a with
  | commit body =>
    simp only [FeedPump.step] at hs
    split at hs <;> cases hs <;> exact ⟨h, .inr ⟨⟨body, rfl⟩, rfl⟩⟩
  | signal i =>
    simp only [FeedPump.step, bind_eq_bind, bind_eq_some_iff] at hs
    obtain ⟨sig, hget, hs⟩ := hs
    cases hs
    exact ⟨FeedPump.forall_setEntry (s := { s with pending := _ }) h (hsig i sig rfl hget), .inl rfl⟩
  | advance sid i =>
    simp only [FeedPump.step, bind_eq_bind, bind_eq_some_iff] at hs
    obtain ⟨e, he, hs⟩ := hs
    obtain ⟨w, a, hrep⟩ := s.report_eq sid i
    rw [hrep] at hs
    cases hs
    exact ⟨FeedPump.forall_setEntry (s := { s with admissionWatches := w, admitted := a }) h
      (hadv sid i e he), .inl rfl⟩
  | readFails sid i =>
    simp only [FeedPump.step] at hs
    split at hs
    · next hget => cases hs; exact ⟨FeedPump.forall_setEntry h (hstop sid i _ id hget), .inl rfl⟩
    · next hget => cases hs; exact ⟨FeedPump.forall_setEntry h (hstop sid i _ id hget), .inl rfl⟩
    · cases hs
  | panics sid i =>
    simp only [FeedPump.step] at hs
    split at hs
    · next hget =>
      obtain ⟨_, hs⟩ := of_guard hs
      obtain ⟨w, a, hrep⟩ := s.report_eq sid i
      rw [hrep] at hs
      cases hs
      exact ⟨FeedPump.forall_setEntry (s := { s with admissionWatches := w, admitted := a }) h
        (hstop sid i _ id hget), .inl rfl⟩
    · cases hs
  | cancel | setSink | watchAdmission key watch => cases hs; exact ⟨h, .inl rfl⟩
  | stopWatch =>
    simp only [FeedPump.step] at hs
    split at hs <;> cases hs <;> exact ⟨h, .inl rfl⟩

theorem FeedPump.single_step (h : ∀ sid, (s.sessions sid).Single) {a : PumpAction}
    (hs : s.step a = some s') : ∀ sid, (s'.sessions sid).Single :=
  (FeedPump.entries_step (P := fun _ e => e.Single) hs h (fun _ sig _ _ => (h _).signal sig)
    (fun sid _ _ he => (h sid).advance he) fun sid _ _ _ hget => (h sid).stop hget).1

end

/-- **No lost wake-up.** In every run there is at most one pump goroutine per session. And in every
run in which reads succeed and no `ListFeed` call is overtaken, at every moment a session without a
goroutine has handed to the sink every row after its start whose signal call has returned. -/
theorem feedPump_no_lost_wakeup (db : FeedTables) (hc : db.Contiguous) (as : List PumpAction) :
    Always FeedPump.step FeedPump.AtMostOne (.installed db) as ∧
    (Along FeedPump.step (fun s a => s.Succeeds a ∧ s.NotOvertaken a) (.installed db) as →
      Always FeedPump.step FeedPump.SignalledDelivered (.installed db) as) := by
  refine ⟨?_, fun hC => ?_⟩
  · have hsingle : Always FeedPump.step (fun s => ∀ sid, (s.sessions sid).Single)
        (.installed db) as :=
      Always.of_step (fun s a s' h hs => FeedPump.single_step h hs)
        fun _ => ⟨Nat.zero_le _, fun hne => absurd rfl hne⟩
    exact hsingle.mono fun s h sid => (h sid).one
  · have hinv : Always FeedPump.step (FeedPump.Inv db.feedHead) (.installed db) as :=
      always_of_along (fun s a s' h hC hs => h.step hC.1 hC.2 hs) (FeedPump.inv_installed hc) hC
    exact hinv.mono fun s h => h.signalledDelivered

/-- The rows of session 1 an idle pump owes: their signals have returned, the sink does not have
them. -/
def FeedPump.owed (s : FeedPump) : List FeedItem :=
  (s.db.rows 1).filter fun r =>
    (s.sessions 1).returned.any (fun sig => sig.first ≤ r.sequence && r.sequence ≤ sig.last) &&
      ((s.sessions 1).start < r.sequence && r ∉ (s.sessions 1).handed.map row)

/-- A goroutine whose call has read the events when an event and a notice are committed and
signalled, and the steps it takes until it stops. -/
def overtakenPump : List PumpAction :=
  [.commit [.events 1 [anEvent]], .signal 0] ++ replicate 4 (.advance 1 0) ++
    [.commit [.events 1 [anEvent]], .commit [.notice 1 aNotice], .signal 0, .signal 0] ++
    replicate 5 (.advance 1 0) ++ replicate 9 (.advance 1 0)

/-- The page skips the second event, so the pump stops without having delivered it, although its
signal has returned. -/
theorem feedPump_loses_overtaken_row :
    oneSession.Contiguous ∧
    Along FeedPump.step FeedPump.Succeeds (.installed .oneSession) overtakenPump ∧
    ((exec FeedPump.step (.installed .oneSession) overtakenPump).map fun s =>
      ((s.sessions 1).handed.map sequence, (s.sessions 1).goroutines.length,
        s.owed.map sequence)) = some ([1, 3], 0, [2]) ∧
    ¬ Always FeedPump.step FeedPump.SignalledDelivered (.installed .oneSession) overtakenPump := by
  refine ⟨oneSession_contiguous, by decide +kernel, by decide +kernel, ?_⟩
  refine not_always_of_exec (f := fun s => (s.sessions 1).goroutines.length = 0 ∧ s.owed ≠ [])
    (fun s hs hP => ?_) (by decide +kernel)
  obtain ⟨hg, hne⟩ := of_decide_eq_true hs
  obtain ⟨r, hr⟩ := exists_mem_of_ne_nil _ hne
  simp only [FeedPump.owed, mem_filter, Bool.and_eq_true, any_eq_true, decide_eq_true_eq] at hr
  obtain ⟨hrow, ⟨sig, hsig, h1, h2⟩, h3, hnot⟩ := hr
  exact hnot (hP 1 (length_eq_zero_iff.1 hg) sig hsig r hrow h1 h2 h3)

/-- A second event is committed and signalled while the goroutine of the first reads. -/
def signalledAgain : List PumpAction :=
  [.commit [.events 1 [anEvent]], .signal 0] ++ replicate 4 (.advance 1 0) ++
    [.commit [.events 1 [anEvent]], .signal 0] ++ replicate 14 (.advance 1 0)

/-- The goroutine goes around once more, and hands over both. -/
theorem feedPump_no_lost_wakeup_again :
    oneSession.Contiguous ∧
    ((exec FeedPump.step (.installed .oneSession) signalledAgain).map fun s =>
      ((s.sessions 1).handed.map sequence, (s.sessions 1).goroutines.length)) = some ([1, 2], 0) ∧
    Along FeedPump.step (fun s a => s.Succeeds a ∧ s.NotOvertaken a) (.installed .oneSession)
      signalledAgain ∧
    Always FeedPump.step FeedPump.SignalledDelivered (.installed .oneSession) signalledAgain := by
  have hcalls : Along FeedPump.step (fun s a => s.Succeeds a ∧ s.NotOvertaken a)
      (.installed .oneSession) signalledAgain := by decide +kernel
  refine ⟨oneSession_contiguous, by decide +kernel, hcalls, ?_⟩
  exact (feedPump_no_lost_wakeup _ oneSession_contiguous signalledAgain).2 hcalls

end Peen
