import SortingHat.Service.Restart

/-!
# Opening again after a stopped open

* `open_inert`: a call of `open` that fails changes nothing;
* `Resumable`: what a stopped open must have left for the next one to end alike;
* `open_resumes_iff`: it is exactly that.
-/

namespace SortingHat
open Posix Effect
open Journal (Row Database State Entry Pruned)

/-! ## Failing calls -/

/-- The call fails, and nobody else touches the files. -/
def Tick.Fails (t : Tick) : Prop := t.others = none ∧ t.fault ≠ none

section
variable {α : Type}

theorem lookWith_inert (f : Tick → FileSystem → Except Errno α) :
    InertE Tick.Fails (lookWith f) :=
  Prog.Inert.atomic fun _ fs ht => Tick.Alone.found ht.1 fs

theorem touch_inert : InertE Tick.Fails touch := lookWith_inert fun _ _ => .ok ()

theorem query_inert (f : Database → α) : InertE Tick.Fails (Journal.query f) :=
  Prog.Inert.atomic fun _ _ _ => rfl

theorem execute_inert (f : Int → Database → Except Journal.JournalError (α × Database)) :
    InertE Tick.Fails (Journal.execute f) := by
  refine Prog.Inert.atomic fun t db ht => ?_
  obtain ⟨e, he⟩ := Option.ne_none_iff_exists'.mp ht.2
  rw [he]

theorem get_inert (id : Uuid) : InertE Tick.Fails (Journal.get id) := by
  unfold Journal.get
  refine inertE_bind (query_inert _) fun found => inertE_bind (inertE_orFail _ _) fun row => ?_
  unfold Journal.get.liftExcept
  split
  · exact inertE_pure _
  · exact inertE_throw _

theorem transition_inert (id : Uuid) (revision : Nat) (next : State) :
    InertE Tick.Fails (Journal.transition id revision next) := by
  unfold Journal.transition
  refine inertE_bind (get_inert id) fun current => ?_
  refine inertE_bind (inertE_failIf _ _) fun _ => inertE_bind (inertE_failIf _ _) fun _ => ?_
  refine inertE_bind (inertE_orFail _ _) fun _ => inertE_bind (inertE_orFail _ _) fun _ => ?_
  refine inertE_bind (inertE_orFail _ _) fun _ => inertE_bind (execute_inert _) fun _ => ?_
  exact inertE_bind (inertE_failIf _ _) fun _ => get_inert id

theorem enforceRetention_inert (retain maxAgeSeconds maxBytes : Nat) :
    InertE Tick.Fails (Journal.enforceRetention retain maxAgeSeconds maxBytes) := by
  have hlength : InertE Tick.Fails Journal.fileLength := Prog.Inert.atomic fun _ _ _ => rfl
  unfold Journal.enforceRetention Journal.pruneTerminal
  refine inertE_bind (inertE_orFail _ _) fun _ => inertE_bind (execute_inert _) fun _ => ?_
  refine inertE_bind (inertE_bind (inertE_orFail _ _) fun _ => execute_inert _) fun _ => ?_
  refine inertE_bind (query_inert _) fun _ => inertE_bind hlength fun _ => ?_
  refine inertE_bind hlength fun _ => inertE_bind (inertE_orFail _ _) fun _ => ?_
  refine inertE_bind hlength fun _ => inertE_bind (inertE_orFail _ _) fun _ => ?_
  exact inertE_bind (inertE_failIf _ _) fun _ => inertE_pure _

theorem modifyState_inert (f : PersistentState → PersistentState) :
    InertS Tick.Fails (modifyState f) := fun _ => trivial

theorem getState_inert : InertS Tick.Fails getState := fun _ => trivial

theorem save_inert : InertS Tick.Fails save := by
  have htouch : InertS Tick.Fails (ofIo touch) :=
    inertS_embed (inertE_inPart touch_inert)
  have hinstall : ∀ state, InertE Tick.Fails (install state) := fun state => by
    refine Prog.Inert.atomic fun t old ht => ?_
    obtain ⟨e, he⟩ := Option.ne_none_iff_exists'.mp ht.2
    rw [he]
  unfold save
  refine inertS_bind getState_inert fun state => inertS_bind (inertS_failIf _ _) fun _ => ?_
  refine inertS_bind htouch fun _ => inertS_bind htouch fun _ => inertS_bind htouch fun _ => ?_
  refine inertS_bind (inertS_embed (inertE_inPart (hinstall state))) fun _ => ?_
  exact inertS_bind htouch fun _ => htouch

theorem identity_inert (path : Bytes) : InertE Tick.Fails (Identity.read path) := by
  unfold Identity.read
  refine inertE_bind (inertE_recast _ (lookWith_inert _)) fun r => ?_
  refine inertE_bind (inertE_failIf _ _) fun _ => inertE_bind (inertE_failIf _ _) fun _ => ?_
  exact inertE_pure _

theorem hashFrom_inert (fd : Fd) (fuel : Nat) (hashed : Bytes) :
    InertE Tick.Fails (hashFrom fd fuel hashed) := by
  induction fuel generalizing hashed with
  | zero => exact inertE_pure _
  | succ fuel ih =>
    unfold hashFrom
    refine inertE_bind (inertE_recast _ (lookWith_inert _)) fun chunk => ?_
    split
    · exact inertE_pure _
    · exact ih _

variable {P : Platform}

theorem verify_inert (destination : Bytes) (proposal : Proposal) (expected : Option String) :
    InertE Tick.Fails (verifyRecoveryDestination P destination proposal expected) := by
  unfold verifyRecoveryDestination
  refine inertE_bind (inertE_observe (identity_inert _)) fun found => ?_
  split
  · exact inertE_pure _
  · split
    · exact inertE_pure _
    · split
      · refine inertE_bind (inertE_observe ?_) fun _ => inertE_pure _
        unfold sha256 sha256File
        refine inertE_bind (inertE_recast _ (lookWith_inert _)) fun fd => ?_
        exact inertE_bind (hashFrom_inert fd _ _) fun _ => inertE_pure _
      · exact inertE_pure _

theorem moveEvidence_inert (entry : Entry) : InertS Tick.Fails (moveEvidence P entry) := by
  unfold moveEvidence
  refine inertS_bind (inertS_embed (inertE_inPart ?_)) fun absent => ?_
  · unfold sourceAbsent
    refine inertE_bind (inertE_observe (lookWith_inert _)) fun r => ?_
    split <;> exact inertE_pure _
  · refine inertS_bind getState_inert fun state => inertS_bind ?_ fun _ => inertS_pure _
    split
    · exact inertS_embed (inertE_inPart (verify_inert _ _ _))
    · exact inertS_pure _

theorem recoverEntry_inert (entry : Entry) : InertS Tick.Fails (recoverEntry P entry) := by
  have hmove : ∀ next,
      InertS Tick.Fails (ofJournal (Journal.transition entry.id entry.revision next)) :=
    fun next => inertS_embed (inertE_inPart (transition_inert _ _ _))
  unfold recoverEntry
  refine inertS_bind ?_ fun done => ?_
  · split
    · exact moveEvidence_inert entry
    · exact inertS_pure _
  · split
    · unfold completeEntry
      exact inertS_bind (hmove _) fun _ => modifyState_inert _
    · split
      · unfold flagEntry
        refine inertS_bind (hmove _) fun _ => inertS_bind (modifyState_inert _) fun _ => ?_
        refine inertS_bind getState_inert fun state => ?_
        split
        · refine inertS_bind (inertS_embed (inertE_inPart ?_)) fun _ => modifyState_inert _
          unfold recoveryWarning
          exact inertE_bind (inertE_observe (identity_inert _)) fun _ =>
            inertE_bind (verify_inert _ _ _) fun _ => inertE_pure _
        · exact inertS_pure _
      · exact inertS_pure _

/-- **A call of `open` that fails changes nothing.** -/
theorem open_inert : InertE Tick.Fails (Service.open P) := by
  have hread : InertE Tick.Fails readStateFile := Prog.Inert.atomic fun _ _ _ => rfl
  have hexists : InertE Tick.Fails stateExists := Prog.Inert.atomic fun _ _ _ => rfl
  have hload : InertE Tick.Fails loadState := by
    unfold loadState readState
    refine inertE_bind (inertE_recast _ hexists) fun present => ?_
    split
    · refine inertE_bind (inertE_recast _ hread) fun _ => inertE_bind (inertE_failIf _ _) fun _ => ?_
      refine inertE_bind (inertE_recast _ hread) fun _ => inertE_bind (inertE_orFail _ _) fun _ => ?_
      exact inertE_bind (inertE_failIf _ _) fun _ => inertE_pure _
    · exact inertE_pure _
  have hrecover : InertS Tick.Fails (recoverWithoutGuessing P) := by
    unfold recoverWithoutGuessing Journal.nonterminal
    refine inertS_bind (inertS_embed (inertE_inPart ?_)) fun entries => ?_
    · exact inertE_bind (query_inert _) fun ids => inertE_mapM get_inert ids
    · exact inertS_bind (inertS_forM recoverEntry_inert entries) fun _ => save_inert
  unfold Service.open Service.openWith Service.settleIn
  refine inertE_bind (inertE_recast _ (inertE_inPart touch_inert)) fun _ => ?_
  refine inertE_bind (inertE_inPart hload) fun state => ?_
  refine inertE_bind (inertE_recast _ (inertE_inPart (query_inert _))) fun _ => ?_
  refine inertE_bind (inertE_within ?_ _) fun settled => inertE_pure settled.2
  unfold enforceJournalRetention
  refine inertS_bind (inertS_bind (inertS_embed (inertE_inPart (enforceRetention_inert _ _ _)))
    fun _ => inertS_pure _) fun _ => ?_
  exact inertS_bind (modifyState_inert _) fun _ => hrecover

end

/-! ## Two opens -/

/-- What `open` loads. -/
def World.loaded (w : World) : PersistentState :=
  match w.stateJson with
  | none => PersistentState.initial
  | some file => file.content.getD PersistentState.initial

/-- Rows and proposals that both ends still have are at the same revision, in the
same state and with the same status. -/
structure SameEnd (s : Service) (w : World) (s' : Service) (w' : World) : Prop where
  rows : ∀ id row row', w.db.find id = some row → w'.db.find id = some row' →
    row'.state = row.state ∧ row'.revision = row.revision
  proposals : ∀ id p p', s.state.findProposal id = some p → s'.state.findProposal id = some p' →
    p'.status = p.status ∧ p'.revision = p.revision

/-- Between `w` and `w'` the row of the id has been moved, to `row'`. -/
def Moved (w w' : World) (id : Uuid) (row' : Row) : Prop :=
  ∃ row, w.db.find id = some row ∧ w'.db.find id = some row' ∧ row' ≠ row

/-- What an open started in `w` must have left in `w'` when it is stopped. -/
structure Resumable (w w' : World) : Prop where
  /-- The saved queue has kept pace: it shows every moved row, and is otherwise as it was. -/
  pace : ∀ id p p', w.loaded.pruned.findProposal id = some p →
    w'.loaded.pruned.findProposal id = some p' →
    (∀ row', Moved w w' id row' → Agrees p' row') ∧
    ((∀ row', ¬ Moved w w' id row') → p'.status = p.status ∧ p'.revision = p.revision)
  /-- The thousand rows read are the same, as far as they are still interrupted. -/
  window : ∀ row ∈ w'.db.rows, row.interrupted = true →
    (row ∈ w'.db.nonterminal ↔ row ∈ w.db.nonterminal)

section
variable {A B : Tick → Prop} {P : Platform} {fs : FileSystem} {state : PersistentState}
  {entry : Entry} {next next' : State} {log : Verdicts} {w w' : World}

theorem Loaded.eq (hA : Faultless A) (h : Loaded A w.stateJson state) : state = w.loaded := by
  unfold World.loaded
  rcases h with ⟨rfl, hn⟩ | ⟨file, hf, hs⟩
  · rw [hn hA]
  · rw [hf]
    show state = file.content.getD _
    rw [hs]
    rfl

/-- Without failing calls the disk decides the verdict. -/
theorem Verdict.decided (hA : Faultless A) (hB : Faultless B)
    (h : Verdict A P fs state entry next) (h' : Verdict B P fs state entry next') :
    next = next' := by
  have conflict : ∀ {A B : Tick → Prop}, Faultless A → Faultless B →
      Verdict A P fs state entry .completed → Verdict B P fs state entry .needsAttention →
      False := fun hA hB h h' => by
    obtain ⟨p, hp, hs⟩ := h.sound hA.honest rfl
    rcases h.outcome with ⟨-, hsr⟩ | ho
    · exact h'.complete hB rfl hsr p hp hs
    · cases ho
  rcases h.outcome with ⟨rfl, -⟩ | rfl <;> rcases h'.outcome with ⟨rfl, -⟩ | rfl
  · rfl
  · exact (conflict hA hB h h').elim
  · exact (conflict hB hA h' h).elim
  · rfl

theorem journal_injective {s s' : Status} {reached : State} (h : s.journal? = some reached)
    (h' : s'.journal? = some reached) : s = s' := by
  cases s <;> cases h <;> cases s' <;> first | rfl | cases h'

end

/-! ## What one open makes of one id -/

/-- A row that is judged: it stood interrupted among the rows read. -/
structure Judges (P : Platform) (w : World) (state : PersistentState) (row row' : Row) : Prop where
  read : row ∈ w.db.nonterminal
  interrupted : row.interrupted = true
  verdict : ∃ entry next now, row.Reads entry ∧ Verdict Tick.Sound P w.fs state entry next ∧
    row' = row.moved next now

/-- What a whole open, its calls all sound, makes of the row and the proposal of an id. -/
inductive Outcome (P : Platform) (w : World) (state₀ state : PersistentState) (w' : World)
    (id : Uuid) : Prop where
  | left (hp : state.findProposal id = state₀.findProposal id)
      (hback : ∀ row, w'.db.find id = some row → w.db.find id = some row)
      (hunread : ∀ row, w.db.find id = some row → row.interrupted = true →
        w'.db.find id = some row ∧ row ∉ w.db.nonterminal)
  | judged {row row' : Row} (hfind : w.db.find id = some row) (hfind' : w'.db.find id = some row')
      (hj : Judges P w state₀ row row') (hnone : state₀.findProposal id = none →
        state.findProposal id = none)
      (hsome : ∀ p, state₀.findProposal id = some p →
        ∃ p', state.findProposal id = some p' ∧ Agrees p' row')

/-- What a stopped open makes of the row of an id. -/
inductive Partial (P : Platform) (w : World) (state₀ : PersistentState) (w' : World) (id : Uuid) :
    Prop where
  | left (hback : ∀ row, w'.db.find id = some row → w.db.find id = some row)
      (hkept : ∀ row, w.db.find id = some row → row.interrupted = true →
        w'.db.find id = some row)
  | judged {row row' : Row} (hfind : w.db.find id = some row) (hfind' : w'.db.find id = some row')
      (hj : Judges P w state₀ row row')

section
variable {P : Platform} {w w' w₁ : World} {state₀ state : PersistentState} {log : Verdicts}
  {id : Uuid} {row row' : Row}

theorem Judges.ne (h : Judges P w state₀ row row') : row' ≠ row := by
  obtain ⟨entry, next, now, -, -, rfl⟩ := h.verdict
  exact Row.moved_ne row next now

theorem Judges.settled (h : Judges P w state₀ row row') : row'.interrupted = false := by
  obtain ⟨entry, next, now, -, hv, rfl⟩ := h.verdict
  rw [@Row.interrupted_of_state (row.moved next now) _ rfl]
  rcases hv.outcome with ⟨ho, -⟩ | ho <;> rw [ho] <;> rfl

theorem Judges.same {row'' : Row} (h : Judges P w state₀ row row')
    (h' : Judges P w₁ state₀ row row'') (hfs : w₁.fs = w.fs) :
    row''.state = row'.state ∧ row''.revision = row'.revision := by
  obtain ⟨entry, next, now, hr, hv, rfl⟩ := h.verdict
  obtain ⟨entry', next', now', hr', hv', rfl⟩ := h'.verdict
  obtain rfl := Row.Reads.unique hr hr'
  rw [hfs] at hv'
  obtain rfl := hv.decided (fun _ ht => ht) (fun _ ht => ht) hv'
  exact ⟨rfl, rfl⟩

theorem Agrees.same {p p' : Proposal} (h : Agrees p row) (h' : Agrees p' row')
    (hs : row'.state = row.state) (hr : row'.revision = row.revision) :
    p'.status = p.status ∧ p'.revision = p.revision := by
  obtain ⟨hrev, reached, hj, hst⟩ := h
  obtain ⟨hrev', reached', hj', hst'⟩ := h'
  obtain rfl : reached' = reached := Journal.State.asStr_injective (by rw [← hst', ← hst, hs])
  exact ⟨journal_injective hj' hj, by omega⟩

theorem Agrees.of_same {p p' : Proposal} (h : Agrees p row) (hs : row'.state = row.state)
    (hr : row'.revision = row.revision) (hst : p'.status = p.status)
    (hrev : p'.revision = p.revision) : Agrees p' row' := by
  obtain ⟨hprev, reached, hj, hstate⟩ := h
  exact ⟨by omega, reached, by rw [hst, hj], by rw [hs, hstate]⟩

/-- Retention hides nothing from recovery. -/
theorem Retained.judges {entries : List Entry} {e : Entry × State} {now : Int}
    (hret : Retained Tick.Sound w w₁) (hread : ReadFrom w₁.db entries) (hm : e.1 ∈ entries)
    (hr : row.Reads e.1) (hrow : w₁.db.find id = some row)
    (hv : Verdict Tick.Sound P w₁.fs state₀ e.1 e.2) :
    Judges P w state₀ row (row.moved e.2 now) := by
  obtain ⟨row', hin, hfind, -⟩ := hread.find hm
  rw [hr.id, Database.find_of_mem (Database.find_eq_some.mp hrow).1] at hfind
  obtain rfl := Option.some.inj hfind
  have hquiet : Quiet Tick.Sound := fun _ ht => ht.alone
  exact ⟨hret.db.nonterminal ▸ hin, hr.interrupted.trans hv.interrupted, e.1, e.2, now, hr,
    hret.fs hquiet ▸ hv, rfl⟩

theorem Retained.find_back (hret : Retained Tick.Sound w w₁) (h : w₁.db.find id = some row) :
    w.db.find id = some row := by
  obtain ⟨hm, hid⟩ := Database.find_eq_some.mp h
  exact Database.find_eq_some.mpr ⟨hret.db.mem hm, hid⟩

theorem Retained.find_interrupted (hret : Retained Tick.Sound w w₁)
    (h : w.db.find id = some row) (hi : row.interrupted = true) : w₁.db.find id = some row := by
  obtain ⟨hm, hid⟩ := Database.find_eq_some.mp h
  exact Database.find_eq_some.mpr ⟨hret.db.mem_active hm (Row.active_of_interrupted hi), hid⟩

theorem RowsAfter.find_back {db₀ db : Database} (h : RowsAfter db₀ log db)
    (hlog : ∀ e ∈ log, e.1.id ≠ id) (hfind : db.find id = some row) : db₀.find id = some row :=
  (h.others id hlog).symm.trans hfind

theorem Recovered.outcome (hret : Retained Tick.Sound w w₁)
    (h : Recovered Tick.Sound P w₁ state₀ log state w') (id : Uuid) :
    Outcome P w state₀ state w' id := by
  obtain ⟨entries, hread, hcovers, hlog⟩ := h.entries
  by_cases hid : ∀ e ∈ log, e.1.id ≠ id
  · refine .left (h.queue.others id hid) (fun row hf => ?_) fun row hf hi => ?_
    · exact hret.find_back (h.rows.find_back hid hf)
    · have hf₁ := hret.find_interrupted hf hi
      refine ⟨(h.rows.others id hid).trans hf₁, fun hin => ?_⟩
      obtain ⟨entry, he, hr⟩ := hread.of_mem (hret.db.nonterminal ▸ hin)
      obtain ⟨next, hn⟩ := hcovers entry he (hr.interrupted ▸ hi)
      exact hid _ hn (hr.id.trans (Database.find_eq_some.mp hf).2)
  · push Not at hid
    obtain ⟨e, he, rfl⟩ := hid
    obtain ⟨row, now, hfind, hr, hmoved⟩ := h.rows.moved e he
    have hv := (hlog e he).2
    have hs := h.queue.settled e he
    refine .judged (hret.find_back hfind) hmoved (hret.judges hread (hlog e he).1 hr hfind hv)
      (fun hn => by rwa [hn] at hs) fun p hp => ?_
    rw [hp] at hs
    obtain ⟨warning, hw⟩ := hs
    refine ⟨_, hw, ?_, e.2, verdictStatus_journal hv, rfl⟩
    show ((e.1.revision + 1 : Nat) : Int) = row.revision + 1
    rw [← hr.revision]
    rfl

theorem Stopped.outcome (hret : Retained Tick.Sound w w₁)
    (h : Stopped Tick.Sound P w₁ state₀ log w') (id : Uuid) : Partial P w state₀ w' id := by
  obtain ⟨entries, hread, hlog, -⟩ := h.entries
  by_cases hid : ∀ e ∈ log, e.1.id ≠ id
  · exact .left (fun row hf => hret.find_back (h.rows.find_back hid hf)) fun row hf hi =>
      (h.rows.others id hid).trans (hret.find_interrupted hf hi)
  · push Not at hid
    obtain ⟨e, he, rfl⟩ := hid
    obtain ⟨row, now, hfind, hr, hmoved⟩ := h.rows.moved e he
    rcases hread with rfl | hread
    · cases he
    · exact .judged (hret.find_back hfind) hmoved
        (hret.judges hread (hlog e he).1 hr hfind (hlog e he).2)

end

/-! ## The comparison -/

/-- An open from `w` run through, and one stopped in `w₁` with another after it. -/
structure Twice (P : Platform) (w : World) (s : Service) (we w₁ : World) (s₂ : Service)
    (w₂ : World) : Prop where
  whole : ∀ id, Outcome P w w.loaded.pruned s.state we id
  first : ∀ id, Partial P w w.loaded.pruned w₁ id
  again : ∀ id, Outcome P w₁ w₁.loaded.pruned s₂.state w₂ id
  fs : w₁.fs = w.fs
  /-- The saved state is as it was, or the first open had judged all it read. -/
  saved : w₁.loaded = w.loaded ∨ ∀ row ∈ w.db.nonterminal, row.interrupted = true →
    w₁.db.find row.id ≠ some row

section
variable {P : Platform} {w w₁ we w₂ : World} {s s₂ : Service} {id : Uuid} {row row₁ : Row}

/-- A row the first open has moved, the second leaves alone, and one that ran
through moves alike. -/
theorem Twice.of_moved (d : Twice P w s we w₁ s₂ w₂) (hm : Moved w w₁ id row₁) :
    (∀ row₂, w₂.db.find id = some row₂ → row₂ = row₁) ∧
      s₂.state.findProposal id = w₁.loaded.pruned.findProposal id ∧
      ∃ rowe, we.db.find id = some rowe ∧ rowe.state = row₁.state ∧
        rowe.revision = row₁.revision ∧
        ∀ p, w.loaded.pruned.findProposal id = some p →
          ∃ p', s.state.findProposal id = some p' ∧ Agrees p' rowe := by
  obtain ⟨row, hfind, hfind₁, hne⟩ := hm
  cases d.first id with
  | left hback _ => exact absurd (Option.some.inj ((hback row₁ hfind₁).symm.trans hfind)) hne
  | @judged row' row₁' hf hf₁ hj =>
    obtain rfl := Option.some.inj (hfind.symm.trans hf)
    obtain rfl := Option.some.inj (hfind₁.symm.trans hf₁)
    have hsecond : (∀ row₂, w₂.db.find id = some row₂ → row₂ = row₁) ∧
        s₂.state.findProposal id = w₁.loaded.pruned.findProposal id := by
      cases d.again id with
      | left hp hback _ =>
        exact ⟨fun row₂ h₂ => Option.some.inj ((hback row₂ h₂).symm.trans hfind₁), hp⟩
      | judged hf' _ hj' _ _ =>
        obtain rfl := Option.some.inj (hfind₁.symm.trans hf')
        have := hj'.interrupted
        rw [hj.settled] at this
        cases this
    refine ⟨hsecond.1, hsecond.2, ?_⟩
    cases d.whole id with
    | left _ _ hunread => exact absurd hj.read (hunread row hfind hj.interrupted).2
    | @judged row' rowe hf' hfe hje _ hsome =>
      obtain rfl := Option.some.inj (hfind.symm.trans hf')
      obtain ⟨hstate, hrev⟩ := hj.same hje rfl
      exact ⟨rowe, hfe, hstate, hrev, hsome⟩

/-- An interrupted row that the first open has left. -/
theorem Twice.left_behind (d : Twice P w s we w₁ s₂ w₂) (hfind₁ : w₁.db.find id = some row)
    (hi : row.interrupted = true) : w.db.find id = some row := by
  cases d.first id with
  | left hback _ => exact hback row hfind₁
  | judged _ hf₁ hj =>
    obtain rfl := Option.some.inj (hfind₁.symm.trans hf₁)
    rw [hj.settled] at hi
    cases hi

/-- If it had been read, the saved state is the old one. -/
theorem Twice.saved_of_left (d : Twice P w s we w₁ s₂ w₂) (hfind₁ : w₁.db.find id = some row)
    (hi : row.interrupted = true) (hread : row ∈ w.db.nonterminal) : w₁.loaded = w.loaded :=
  d.saved.resolve_right fun h =>
    h row hread hi ((Database.find_eq_some.mp hfind₁).2 ▸ hfind₁)

theorem Twice.window_of_rows (d : Twice P w s we w₁ s₂ w₂)
    (hrows : ∀ id row row', we.db.find id = some row → w₂.db.find id = some row' →
      row'.state = row.state ∧ row'.revision = row.revision)
    (hm : row ∈ w₁.db.rows) (hi : row.interrupted = true) :
    row ∈ w₁.db.nonterminal ↔ row ∈ w.db.nonterminal := by
  have hfind₁ := Database.find_of_mem hm
  have hfind := d.left_behind hfind₁ hi
  have hmoved : ∀ {w : World} {state₀ : PersistentState} {row' : Row},
      Judges P w state₀ row row' → row'.revision ≠ row.revision := fun hj => by
    obtain ⟨entry, next, now, -, -, rfl⟩ := hj.verdict
    simp only [Row.moved]
    omega
  cases d.whole row.id with
  | left _ _ hunread =>
    obtain ⟨hfe, hout⟩ := hunread row hfind hi
    refine ⟨fun hin => ?_, fun hin => absurd hin hout⟩
    cases d.again row.id with
    | left _ _ hunread₁ => exact absurd hin (hunread₁ row hfind₁ hi).2
    | judged hf hf' hj _ _ =>
      obtain rfl := Option.some.inj (hfind₁.symm.trans hf)
      exact absurd (hrows _ _ _ hfe hf').2 (hmoved hj)
  | judged hf hfe hj _ _ =>
    obtain rfl := Option.some.inj (hfind.symm.trans hf)
    refine ⟨fun _ => hj.read, fun _ => ?_⟩
    cases d.again row.id with
    | left _ _ hunread₁ =>
      exact absurd (hrows _ _ _ hfe (hunread₁ row hfind₁ hi).1).2.symm (hmoved hj)
    | judged hf₁ _ hj₁ _ _ =>
      obtain rfl := Option.some.inj (hfind₁.symm.trans hf₁)
      exact hj₁.read

/-- Where the first open has moved nothing, both ends agree on the id as far as
the two saved states do. -/
theorem Twice.of_unmoved (d : Twice P w s we w₁ s₂ w₂)
    (hwindow : ∀ row ∈ w₁.db.rows, row.interrupted = true →
      (row ∈ w₁.db.nonterminal ↔ row ∈ w.db.nonterminal))
    (hm : ∀ row', ¬ Moved w w₁ id row') :
    (∀ row row', we.db.find id = some row → w₂.db.find id = some row' →
      row'.state = row.state ∧ row'.revision = row.revision) ∧
    ((s.state.findProposal id = w.loaded.pruned.findProposal id ∧
        s₂.state.findProposal id = w₁.loaded.pruned.findProposal id) ∨
      (w₁.loaded = w.loaded ∧ ∀ p p', s.state.findProposal id = some p →
        s₂.state.findProposal id = some p' → p'.status = p.status ∧ p'.revision = p.revision)) := by
  -- what the first open has left of the row
  have hback : ∀ row, w₁.db.find id = some row → w.db.find id = some row := by
    cases d.first id with
    | left hback _ => exact hback
    | judged hf hf₁ hj => exact absurd ⟨_, hf, hf₁, hj.ne⟩ (hm _)
  have hkept : ∀ row, w.db.find id = some row → row.interrupted = true →
      w₁.db.find id = some row := by
    cases d.first id with
    | left _ hkept => exact hkept
    | judged hf hf₁ hj => exact absurd ⟨_, hf, hf₁, hj.ne⟩ (hm _)
  cases d.whole id with
  | left hp hbacke hunread =>
    cases d.again id with
    | left hp₂ hback₂ _ =>
      refine ⟨fun row row' he h₂ => ?_, .inl ⟨hp, hp₂⟩⟩
      obtain rfl := Option.some.inj ((hbacke row he).symm.trans (hback row' (hback₂ row' h₂)))
      exact ⟨rfl, rfl⟩
    | @judged row row' hf _ hj _ _ =>
      have hin := (hwindow row (Database.find_eq_some.mp hf).1 hj.interrupted).mp hj.read
      exact absurd hin (hunread row (hback row hf) hj.interrupted).2
  | @judged row rowe hf hfe hj hnone hsome =>
    have hf₁ := hkept row hf hj.interrupted
    have hin := (hwindow row (Database.find_eq_some.mp hf₁).1 hj.interrupted).mpr hj.read
    have hsaved := d.saved_of_left hf₁ hj.interrupted hj.read
    cases d.again id with
    | left _ _ hunread => exact absurd hin (hunread row hf₁ hj.interrupted).2
    | @judged row' row₂ hf₁' hf₂ hj₂ hnone₂ hsome₂ =>
      obtain rfl := Option.some.inj (hf₁.symm.trans hf₁')
      rw [hsaved] at hj₂ hsome₂ hnone₂
      obtain ⟨hstate, hrev⟩ := hj.same hj₂ d.fs
      refine ⟨fun r r' hr hr' => ?_, .inr ⟨hsaved, fun p p' hp hp' => ?_⟩⟩
      · obtain rfl := Option.some.inj (hfe.symm.trans hr)
        obtain rfl := Option.some.inj (hf₂.symm.trans hr')
        exact ⟨hstate, hrev⟩
      · cases hp₀ : w.loaded.pruned.findProposal id with
        | none =>
          rw [hnone hp₀] at hp
          cases hp
        | some p₀ =>
          obtain ⟨q, hq, hqa⟩ := hsome p₀ hp₀
          obtain ⟨q', hq', hqa'⟩ := hsome₂ p₀ hp₀
          obtain rfl := Option.some.inj (hp.symm.trans hq)
          obtain rfl := Option.some.inj (hp'.symm.trans hq')
          exact hqa.same hqa' hstate hrev

theorem Twice.iff (d : Twice P w s we w₁ s₂ w₂) : SameEnd s we s₂ w₂ ↔ Resumable w w₁ := by
  constructor
  · intro h
    have hwindow : ∀ row ∈ w₁.db.rows, row.interrupted = true →
        (row ∈ w₁.db.nonterminal ↔ row ∈ w.db.nonterminal) := fun row hm hi =>
      d.window_of_rows h.rows hm hi
    refine ⟨fun id p p₁ hp hp₁ => ⟨fun row₁ hm => ?_, fun hm => ?_⟩, hwindow⟩
    · obtain ⟨-, hp₂, rowe, -, hstate, hrev, hsome⟩ := d.of_moved hm
      obtain ⟨p', hp', hag⟩ := hsome p hp
      obtain ⟨hst, hr⟩ := h.proposals id p' p₁ hp' (hp₂.trans hp₁)
      exact hag.of_same hstate.symm hrev.symm hst hr
    · rcases (d.of_unmoved hwindow hm).2 with ⟨he, h₂⟩ | ⟨hsaved, -⟩
      · exact h.proposals id p p₁ (he.trans hp) (h₂.trans hp₁)
      · rw [hsaved] at hp₁
        obtain rfl := Option.some.inj (hp.symm.trans hp₁)
        exact ⟨rfl, rfl⟩
  · intro h
    refine ⟨fun id row row' he h₂ => ?_, fun id p p' hp hp' => ?_⟩
    · by_cases hm : ∃ row₁, Moved w w₁ id row₁
      · obtain ⟨row₁, hm⟩ := hm
        obtain ⟨hrow, -, rowe, hfe, hstate, hrev, -⟩ := d.of_moved hm
        obtain rfl := Option.some.inj (hfe.symm.trans he)
        rw [hrow row' h₂]
        exact ⟨hstate.symm, hrev.symm⟩
      · exact (d.of_unmoved h.window fun row₁ hr => hm ⟨row₁, hr⟩).1 row row' he h₂
    · have hfrom : ∀ {w : World} {st : PersistentState} {we : World} {q : Proposal},
          Outcome P w w.loaded.pruned st we id → st.findProposal id = some q →
          ∃ q₀, w.loaded.pruned.findProposal id = some q₀ := fun ho hq => by
        cases ho with
        | left hp _ _ => exact ⟨_, hp.symm.trans hq⟩
        | judged _ _ _ hnone _ =>
          exact Option.ne_none_iff_exists'.mp fun hn => by rw [hnone hn] at hq; cases hq
      obtain ⟨p₀, hp₀⟩ := hfrom (d.whole id) hp
      obtain ⟨p₁, hp₁⟩ := hfrom (d.again id) hp'
      obtain ⟨hmoved, hkept⟩ := h.pace id p₀ p₁ hp₀ hp₁
      by_cases hm : ∃ row₁, Moved w w₁ id row₁
      · obtain ⟨row₁, hm⟩ := hm
        obtain ⟨-, hp₂, rowe, -, hstate, hrev, hsome⟩ := d.of_moved hm
        obtain ⟨q, hq, hag⟩ := hsome p₀ hp₀
        obtain rfl := Option.some.inj (hq.symm.trans hp)
        obtain rfl := Option.some.inj ((hp₂.trans hp₁).symm.trans hp')
        exact hag.same (hmoved row₁ hm) hstate.symm hrev.symm
      · have hm : ∀ row₁, ¬ Moved w w₁ id row₁ := fun row₁ hr => hm ⟨row₁, hr⟩
        rcases (d.of_unmoved h.window hm).2 with ⟨he, h₂⟩ | ⟨-, hsame⟩
        · obtain rfl := Option.some.inj ((he.trans hp₀).symm.trans hp)
          obtain rfl := Option.some.inj ((h₂.trans hp₁).symm.trans hp')
          exact hkept hm
        · exact hsame p p' hp hp'

end

/-- Run an open. -/
def openAfter (P : Platform) (ticks : List Tick) (w : World) :
    Sys (Except ServiceError Service) × World :=
  (ExceptT.run (Service.open P)).after ticks w

/-- What a finished open returned. -/
theorem openAfter_ok {P : Platform} (ticks : List Tick) (w : World) (test : Service → Bool)
    (h : (openAfter P ticks w).1.result?.any (fun r => r.toOption.any test) = true) :
    ∃ s, openAfter P ticks w = (.done (.ok s), (openAfter P ticks w).2) ∧ test s = true := by
  cases hr : openAfter P ticks w with
  | mk rest w' =>
    rw [hr] at h
    cases rest with
    | step u n => cases h
    | done r =>
      cases r with
      | error e => cases h
      | ok s => exact ⟨s, rfl, h⟩

/-- The intent of an approval is in the journal, and nothing else of it. -/
def approvedWorld : World :=
  sampleWorld sampleFiles (sampleRow 3 .approved) (sampleState [sampleProposal 2 .proposed])

/-- An open cut between the journal commit of its recovery and its `save`: the
next one leaves the proposal as it was, where one open alone brings it along. -/
theorem open_cut_before_save :
    ∃ (s s₂ : Service) (we w₁ w₂ : World) (rest : Sys (Except ServiceError Service)),
      openAfter .sample (quietAt 1) approvedWorld = (.done (.ok s), we) ∧
      openAfter .sample ((quietAt 1).take 16) approvedWorld = (rest, w₁) ∧
      openAfter .sample (quietAt 1) w₁ = (.done (.ok s₂), w₂) ∧
      ¬ SameEnd s we s₂ w₂ := by
  obtain ⟨s, hwhole, hrev⟩ := openAfter_ok (P := .sample) (quietAt 1) approvedWorld
    (fun s => (s.state.findProposal ⟨2⟩).any fun p => p.revision = 4) (by decide +kernel)
  obtain ⟨s₂, hagain, hrev₂⟩ := openAfter_ok (P := .sample) (quietAt 1)
    (openAfter .sample ((quietAt 1).take 16) approvedWorld).2
    (fun s => (s.state.findProposal ⟨2⟩).any fun p => p.revision = 2) (by decide +kernel)
  refine ⟨s, s₂, _, _, _, _, hwhole, rfl, hagain, fun hsame => ?_⟩
  cases hp : s.state.findProposal ⟨2⟩ with
  | none => rw [hp] at hrev; cases hrev
  | some p =>
    cases hp₂ : s₂.state.findProposal ⟨2⟩ with
    | none => rw [hp₂] at hrev₂; cases hrev₂
    | some p₂ =>
      rw [hp] at hrev
      rw [hp₂] at hrev₂
      have h : p.revision = 4 := of_decide_eq_true hrev
      have h₂ : p₂.revision = 2 := of_decide_eq_true hrev₂
      have := (hsame.proposals ⟨2⟩ p p₂ hp hp₂).2
      omega

/-- **A stopped open can be repeated exactly when** the saved queue has kept pace
with the journal. The first open may be cut anywhere, or end with an error at any
call; nobody else touches the files. -/
theorem open_resumes_iff {P : Platform} {w we w₁ w₂ : World} {s s₂ : Service}
    {ticks ticks₁ ticks₂ : List Tick} {last : Option Tick}
    {rest : Sys (Except ServiceError Service)}
    (hticks : ∀ t ∈ ticks ++ ticks₁ ++ ticks₂, t.Sound) (hlast : ∀ t ∈ last, t.Fails)
    (hwhole : openAfter P ticks w = (.done (.ok s), we))
    (hfirst : openAfter P (ticks₁ ++ last.toList) w = (rest, w₁))
    (hagain : openAfter P ticks₂ w₁ = (.done (.ok s₂), w₂)) :
    SameEnd s we s₂ w₂ ↔ Resumable w w₁ := by
  simp only [List.mem_append] at hticks
  have hsound : Faultless Tick.Sound := fun _ ht => ht
  have hquiet : Quiet Tick.Sound := hsound.honest.quiet
  have reopened : ∀ {w w' : World} {s : Service} {ticks : List Tick}, (∀ t ∈ ticks, t.Sound) →
      openAfter P ticks w = (.done (.ok s), w') → ∃ w₁ log, Retained Tick.Sound w w₁ ∧
        Loaded Tick.Sound w.stateJson w.loaded ∧
        Recovered Tick.Sound P w₁ w.loaded.pruned log s.state w' := fun {w w' s ticks} ht h => by
    have := Prog.wp_after (open_does (A := Tick.Sound) (P := P) (w := w)) ticks ht
    rw [show (ExceptT.run (Service.open P)).after ticks w = _ from h] at this
    obtain ⟨loaded, w₁, log, hl, hret, hrec⟩ := this
    obtain rfl := hl.eq hsound
    exact ⟨w₁, log, hret, hl, hrec⟩
  obtain ⟨wa, logA, hretA, hloaded, hrecA⟩ := reopened (fun t ht => hticks t (.inl (.inl ht))) hwhole
  obtain ⟨wb, logB, hretB, -, hrecB⟩ := reopened (fun t ht => hticks t (.inr ht)) hagain
  -- the failed call has changed nothing
  have hw₁ : (openAfter P ticks₁ w).2 = w₁ := by
    cases last with
    | none =>
      rw [show ticks₁ ++ (none : Option Tick).toList = ticks₁ from List.append_nil _] at hfirst
      rw [hfirst]
    | some t =>
      have := Prog.Inert.after_snoc (open_inert (P := P)) ticks₁ (hlast t rfl) w
      exact this.symm.trans (congrArg Prod.snd hfirst)
  have hhalted : ∃ wc log, Retained Tick.Sound w wc ∧
      Stopped Tick.Sound P wc w.loaded.pruned log w₁ := by
    have := Prog.wp_after (open_does (A := Tick.Sound) (P := P) (w := w)) ticks₁ fun t ht =>
      hticks t (.inl (.inr ht))
    have hh : Halted Tick.Sound P w (openAfter P ticks₁ w).2 := by
      unfold openAfter
      cases hr : (ExceptT.run (Service.open P)).after ticks₁ w with
      | mk rest w' =>
        rw [hr] at this
        cases rest with
        | step u n => exact this
        | done r =>
          cases r with
          | error e => exact this
          | ok s =>
            obtain ⟨loaded, wc, log, hl, hret, hrec⟩ := this
            exact .inr ⟨loaded, wc, log, hl, hret, hrec.stopped⟩
    rw [hw₁] at hh
    rcases hh with hret | ⟨loaded, wc, log, hl, hret, hst⟩
    · exact ⟨w₁, [], hret, .refl⟩
    · obtain rfl := hl.eq hsound
      exact ⟨wc, log, hret, hst⟩
  obtain ⟨wc, logC, hretC, hstC⟩ := hhalted
  refine Twice.iff (P := P) ⟨hrecA.outcome hretA, hstC.outcome hretC, hrecB.outcome hretB,
    (hstC.fs hquiet).trans (hretC.fs hquiet), ?_⟩
  obtain ⟨entries, -, -, hjson | ⟨hread, hcovers, -⟩⟩ := hstC.entries
  · left
    unfold World.loaded
    rw [hjson, hretC.stateJson]
  · refine .inr fun row hin hi hfind => ?_
    obtain ⟨entry, he, hr⟩ := hread.of_mem (hretC.db.nonterminal ▸ hin)
    obtain ⟨next, hn⟩ := hcovers entry he (hr.interrupted ▸ hi)
    obtain ⟨row', now, hf, hr', hmoved⟩ := hstC.rows.moved _ hn
    rw [← hr.id, hmoved] at hfind
    have hm : row ∈ wc.db.rows :=
      (mem_nonterminal (hretC.db.nonterminal ▸ hin : row ∈ wc.db.nonterminal)).1
    have hrow : wc.db.find entry.id = some row := hr.id ▸ Database.find_of_mem hm
    obtain rfl := Option.some.inj (hrow.symm.trans hf)
    exact Row.moved_ne row next now (Option.some.inj hfind)

/-- An open that is cut before it has settled anything. -/
theorem open_resumes_iff_unsettled :
    ∃ (s s₂ : Service) (we w₁ w₂ : World) (rest : Sys (Except ServiceError Service)),
      openAfter .sample (quietAt 1) approvedWorld = (.done (.ok s), we) ∧
      openAfter .sample ((quietAt 1).take 14) approvedWorld = (rest, w₁) ∧
      openAfter .sample (quietAt 1) w₁ = (.done (.ok s₂), w₂) ∧
      (SameEnd s we s₂ w₂ ↔ Resumable approvedWorld w₁) := by
  obtain ⟨s, hwhole, -⟩ := openAfter_ok (P := .sample) (quietAt 1) approvedWorld
    (fun _ => true) (by decide +kernel)
  obtain ⟨s₂, hagain, -⟩ := openAfter_ok (P := .sample) (quietAt 1)
    (openAfter .sample ((quietAt 1).take 14) approvedWorld).2 (fun _ => true)
    (by decide +kernel)
  have hquiet : ∀ t ∈ quietAt 1, t.Sound := by
    intro t ht
    obtain rfl := List.eq_of_mem_replicate ht
    exact ⟨rfl, rfl⟩
  have hticks : ∀ t ∈ quietAt 1 ++ (quietAt 1).take 14 ++ quietAt 1, t.Sound := by
    intro t ht
    rw [List.append_assoc, List.mem_append, List.mem_append] at ht
    rcases ht with ht | ht | ht
    · exact hquiet t ht
    · exact hquiet t (List.mem_of_mem_take ht)
    · exact hquiet t ht
  have hfirst : openAfter .sample ((quietAt 1).take 14 ++ (none : Option Tick).toList)
      approvedWorld = openAfter .sample ((quietAt 1).take 14) approvedWorld := by
    rw [show (quietAt 1).take 14 ++ (none : Option Tick).toList = (quietAt 1).take 14 from
      List.append_nil _]
  have hlast : ∀ t ∈ (none : Option Tick), t.Fails := fun t ht => nomatch ht
  exact ⟨s, s₂, _, _, _, _, hwhole, rfl, hagain,
    open_resumes_iff hticks hlast hwhole hfirst hagain⟩

end SortingHat
