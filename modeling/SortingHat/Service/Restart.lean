import SortingHat.Service.Recovered
import SortingHat.Service.Runs

/-!
# What an open does

* `open_does`: an open, whole or stopped, is retention and then recovery on what
  was loaded;
* `recovery_does_not_guess`: which rows recovery changes, to what and on which
  evidence;
* `open_leaves_none_interrupted`: over every run in which an undo is only served
  while there is room for its row.
-/

namespace SortingHat
open Posix Effect
open Journal (Row Database State Entry Pruned)

namespace Journal

/-- A row in a state only a crash leaves behind. -/
def Row.interrupted (row : Row) : Bool := (State.parse? row.state).any State.interrupted

theorem Row.Reads.interrupted {row : Row} {entry : Entry} (h : row.Reads entry) :
    row.interrupted = entry.state.interrupted := by
  unfold Row.interrupted
  rw [h.state, State.parse_asStr]
  rfl

theorem Row.interrupted_of_state {row : Row} {s : State} (h : row.state = s.asStr) :
    row.interrupted = s.interrupted := by
  unfold Row.interrupted
  rw [h, State.parse_asStr]
  rfl

theorem Row.active_of_interrupted {row : Row} (h : row.interrupted = true) : row.active = true := by
  unfold Row.interrupted at h
  cases hs : State.parse? row.state with
  | none => rw [hs] at h; cases h
  | some s =>
    rw [hs] at h
    rw [Row.active, Row.terminal_of_state (State.parse_eq_some hs)]
    cases s <;> first | rfl | cases h

section
variable {db db' : Database} {row : Row} {id : Uuid}

theorem Pruned.filter_active (h : Pruned db db') :
    db'.rows.filter Row.active = db.rows.filter Row.active := by
  obtain ⟨doomed, ht, rfl⟩ := h
  simp only [Database.delete, List.filter_filter]
  refine List.filter_congr fun row hm => ?_
  cases hd : doomed row with
  | false => simp
  | true => simp [Row.active, ht row hm hd]

/-- Retention does not change what recovery reads. -/
theorem Pruned.nonterminal (h : Pruned db db') : db'.nonterminal = db.nonterminal := by
  unfold Database.nonterminal
  rw [h.filter_active]

theorem Pruned.activeCount (h : Pruned db db') : db'.activeCount = db.activeCount := by
  simp only [Database.activeCount, List.countP_eq_length_filter, h.filter_active]

theorem Pruned.mem (h : Pruned db db') (hm : row ∈ db'.rows) : row ∈ db.rows := by
  obtain ⟨doomed, -, rfl⟩ := h
  exact List.mem_of_mem_filter hm

theorem Pruned.mem_active (h : Pruned db db') (hm : row ∈ db.rows) (ha : row.active = true) :
    row ∈ db'.rows := by
  have : row ∈ db'.rows.filter Row.active := h.filter_active ▸ List.mem_filter.mpr ⟨hm, ha⟩
  exact List.mem_of_mem_filter this

/-- With at most a thousand active rows the query reads them all. -/
theorem Database.mem_nonterminal_of_le (hle : db.activeCount ≤ 1000) (hm : row ∈ db.rows)
    (ha : row.active = true) : row ∈ db.nonterminal := by
  unfold Database.nonterminal
  rw [List.take_of_length_le, List.mem_insertionSort]
  · exact List.mem_filter.mpr ⟨hm, ha⟩
  · rw [List.length_insertionSort, ← List.countP_eq_length_filter]
    exact hle

end
end Journal

/-! ## The open -/

/-- The queue as retention leaves it. -/
def PersistentState.pruned (state : PersistentState) : PersistentState :=
  { state with proposals := pruneTerminalProposals state.proposals }

/-- The stores before recovery: retention has taken out terminal rows. -/
structure Retained (A : Tick → Prop) (w w' : World) : Prop where
  db : Pruned w.db w'.db
  stateJson : w'.stateJson = w.stateJson
  drawn : w'.drawn = w.drawn
  fs : Quiet A → w'.fs = w.fs

/-- A finished open: what was loaded, pruned and recovered. -/
def Reopened (A : Tick → Prop) (P : Platform) (w : World) (loaded : PersistentState) (w₁ : World)
    (log : Verdicts) (s : Service) (w' : World) : Prop :=
  Loaded A w.stateJson loaded ∧ Retained A w w₁ ∧ Recovered A P w₁ loaded.pruned log s.state w'

/-- A stopped open: before recovery, or inside it. -/
def Halted (A : Tick → Prop) (P : Platform) (w w' : World) : Prop :=
  Retained A w w' ∨ ∃ loaded w₁ log, Loaded A w.stateJson loaded ∧ Retained A w w₁ ∧
    Stopped A P w₁ loaded.pruned log w'

section
variable {A : Tick → Prop} {P : Platform} {w w' : World}

theorem Retained.refl : Retained A w w := ⟨.refl _, rfl, rfl, fun _ => rfl⟩

theorem retention_does {s : Service} : wpS A enforceJournalRetention
    (fun _ s' w' => s' = s ∧ Retained A w w') (fun _ _ w' => Retained A w w')
    (Retained A w) s w := by
  have hr : ∀ db, Pruned w.db db → Retained A w { w with db } := fun db hp =>
    ⟨hp, rfl, rfl, fun _ => rfl⟩
  unfold enforceJournalRetention
  refine (wpS_bind _ _).mpr ((wpS_embed _ _).mpr ((wpE_inPart _ _).mpr ?_))
  exact Journal.enforceRetention_wp (fun db hp => hr db hp) (fun _ db hp => hr db hp)
    fun n db hp => ⟨rfl, hr db hp⟩

theorem Retained.trans {w₁ : World} (h : Retained A w w') (h' : Retained A w' w₁) :
    Retained A w w₁ :=
  ⟨h.db.trans h'.db, h'.stateJson.trans h.stateJson, h'.drawn.trans h.drawn,
    fun hq => (h'.fs hq).trans (h.fs hq)⟩

/-- Where the rest of an open has stopped: before recovery, or inside it. -/
def HaltedWith (A : Tick → Prop) (P : Platform) (w : World) (loaded : PersistentState)
    (w' : World) : Prop :=
  Retained A w w' ∨ ∃ w₁ log, Retained A w w₁ ∧ Stopped A P w₁ loaded.pruned log w'

/-- The rest of an open is retention, then recovery. -/
theorem openWith_does {loaded : PersistentState} {w₀ : World} (h : Retained A w₀ w) :
    wpE A (Service.openWith P loaded)
      (fun s w' => ∃ w₁ log, Retained A w₀ w₁ ∧ Recovered A P w₁ loaded.pruned log s.state w')
      (fun _ w' => HaltedWith A P w₀ loaded w') (HaltedWith A P w₀ loaded) w := by
  have hhalt : HaltedWith A P w₀ loaded w := .inl h
  unfold Service.openWith
  refine (wpE_bind _ _).mpr ((Reads.recast _ (Journal.query_reads _).inPart).wpE hhalt
    (fun _ => hhalt) fun _ _ => ?_)
  refine (wpE_bind _ _).mpr ((wpE_within _).mpr ?_)
  unfold Service.settleIn
  refine (wpS_bind _ _).mpr (wpS_mono retention_does ?_ (fun _ _ _ hr => .inl (h.trans hr))
    fun _ hr => .inl (h.trans hr))
  rintro _ s w₁ ⟨rfl, hr⟩
  unfold pruneProposals
  refine (wpS_bind _ _).mpr (wpS_modifyState.mpr ?_)
  refine wpS_mono recover_wp ?_ ?_ ?_
  · exact fun _ s w₂ ⟨log, hrec⟩ => ⟨w₁, log, h.trans hr, hrec⟩
  · exact fun _ _ w₂ ⟨log, hrec⟩ => .inr ⟨w₁, log, h.trans hr, hrec⟩
  · exact fun w₂ ⟨log, hrec⟩ => .inr ⟨w₁, log, h.trans hr, hrec⟩

/-- **An open is retention, then recovery**, on what was loaded. -/
theorem open_does : wpE A (Service.open P)
    (fun s w' => ∃ loaded w₁ log, Reopened A P w loaded w₁ log s w')
    (fun _ w' => Halted A P w w') (Halted A P w) w := by
  unfold Service.open
  have htouch : wpE A touch (fun _ fs => Quiet A → fs = w.fs) (fun _ fs => Quiet A → fs = w.fs)
      (fun fs => Quiet A → fs = w.fs) w.fs := by
    by_cases hq : Quiet A
    · exact look_wp hq (fun _ => rfl) (fun _ _ _ _ _ => rfl) (fun _ _ _ => rfl) fun _ _ _ => rfl
    · have := fun fs (hq' : Quiet A) => absurd (b := fs = w.fs) hq' hq
      exact Prog.wp_trivial (fun r fs => by cases r <;> exact this fs) fun fs => this fs
  have hstart : ∀ fs, (Quiet A → fs = w.fs) → Retained A w { w with fs } := fun fs h =>
    ⟨.refl _, rfl, rfl, h⟩
  refine (wpE_bind _ _).mpr ((wpE_recast _ _).mpr ((wpE_inPart _ _).mpr (wpE_mono htouch ?_
    (fun _ fs h => .inl (hstart fs h)) fun fs h => .inl (hstart fs h))))
  intro _ fs hfs
  have hhalt : Halted A P w { w with fs } := .inl (hstart fs hfs)
  refine (wpE_bind _ _).mpr (loadState_reads.inPart.wpE hhalt (fun _ => hhalt)
    fun loaded hloaded => ?_)
  have hhalted : ∀ w', HaltedWith A P w loaded w' → Halted A P w w' := fun w' hh =>
    hh.imp_right fun ⟨w₁, log, hr, hstopped⟩ => ⟨loaded, w₁, log, hloaded, hr, hstopped⟩
  refine wpE_mono (openWith_does (hstart fs hfs)) ?_ (fun _ => hhalted) hhalted
  exact fun s w' ⟨w₁, log, hr, hrec⟩ => ⟨loaded, w₁, log, hloaded, hr, hrec⟩

end

/-! ## No guessing -/

/-- The disk shows that the row's move is done. -/
def Evident (P : Platform) (fs : FileSystem) (state : PersistentState) (row : Row) : Prop :=
  row.state = State.sourceRemoved.asStr ∧
    ∃ entry p, row.Reads entry ∧ state.findProposal row.id = some p ∧ Shows P fs entry p

/-- What recovery makes of a row: completed on evidence, otherwise handed to the
user where it was interrupted. With `exact`, no row is missed and no evidence. -/
inductive Judged (exact : Prop) (P : Platform) (fs : FileSystem) (state : PersistentState)
    (row : Row) : Row → Prop where
  | kept (h : exact → row.interrupted = false) : Judged exact P fs state row row
  | completed (now : Int) (h : Evident P fs state row) :
      Judged exact P fs state row (row.moved .completed now)
  | flagged (now : Int) (h : row.interrupted = true) (hno : exact → ¬ Evident P fs state row) :
      Judged exact P fs state row (row.moved .needsAttention now)

section
variable {A : Tick → Prop} {P : Platform} {fs : FileSystem} {state : PersistentState} {row : Row}
  {entry : Entry} {next : State} {db₀ db : Database} {log : Verdicts}

theorem Row.Reads.unique {entry' : Entry} (h : row.Reads entry) (h' : row.Reads entry') :
    entry = entry' :=
  Except.ok.inj ((Journal.Row.entry_eq_ok.mpr h).symm.trans (Journal.Row.entry_eq_ok.mpr h'))

theorem Verdict.evident (hv : Verdict A P fs state entry next) (hr : row.Reads entry)
    (hA : Honest A) (hn : next = .completed) : Evident P fs state row := by
  obtain ⟨p, hp, hs⟩ := hv.sound hA hn
  rcases hv.outcome with ⟨-, hsr⟩ | hna
  · exact ⟨by rw [hr.state, hsr], entry, p, hr, hr.id ▸ hp, hs⟩
  · rw [hn] at hna
    cases hna

theorem Verdict.not_evident (hv : Verdict A P fs state entry next) (hr : row.Reads entry)
    (hA : Faultless A) (hn : next = .needsAttention) : ¬ Evident P fs state row := by
  rintro ⟨hsr, entry', p, hr', hp, hs⟩
  obtain rfl := Row.Reads.unique hr hr'
  have : entry.state = .sourceRemoved := Journal.State.asStr_injective (hr.state.symm.trans hsr)
  exact hv.complete hA hn this p (hr.id ▸ hp) hs

theorem Verdict.judged (hv : Verdict A P fs state entry next) (hr : row.Reads entry)
    (hA : Honest A) (now : Int) : Judged (Faultless A) P fs state row (row.moved next now) := by
  rcases hv.outcome with ⟨rfl, -⟩ | rfl
  · exact .completed now (hv.evident hr hA rfl)
  · exact .flagged now (hr.interrupted.trans hv.interrupted) fun hf => hv.not_evident hr hf rfl

theorem Judged.mono {exact exact' : Prop} {row' : Row} (h : Judged exact P fs state row row')
    (hi : exact' → exact) : Judged exact' P fs state row row' := by
  cases h with
  | kept h => exact .kept fun he => h (hi he)
  | completed now h => exact .completed now h
  | flagged now h hno => exact .flagged now h fun he => hno (hi he)

theorem RowsAfter.find_none (h : RowsAfter db₀ log db) {id : Uuid} (hn : db₀.find id = none) :
    db.find id = none := by
  rw [h.others id fun e he hid => ?_]
  · exact hn
  · obtain ⟨row, now, hfind, -⟩ := h.moved e he
    rw [hid, hn] at hfind
    cases hfind

/-- A row after verdicts, by whether there is one on its entry. -/
theorem RowsAfter.find_some (h : RowsAfter db₀ log db) {id : Uuid} (hfind : db₀.find id = some row) :
    ((∀ e ∈ log, e.1.id ≠ id) ∧ db.find id = some row) ∨
      ∃ e ∈ log, e.1.id = id ∧ row.Reads e.1 ∧ ∃ now, db.find id = some (row.moved e.2 now) := by
  by_cases hlog : ∀ e ∈ log, e.1.id ≠ id
  · exact .inl ⟨hlog, (h.others id hlog).trans hfind⟩
  · push Not at hlog
    obtain ⟨e, he, rfl⟩ := hlog
    obtain ⟨row', now, hfind', hr, hmoved⟩ := h.moved e he
    obtain rfl := Option.some.inj (hfind.symm.trans hfind')
    exact .inr ⟨e, he, rfl, hr, now, hmoved⟩

theorem Stopped.judged {w w' : World} {state₀ : PersistentState}
    (h : Stopped A P w state₀ log w') (hA : Honest A) {id : Uuid}
    (hfind : w.db.find id = some row) :
    ∃ row', w'.db.find id = some row' ∧ Judged False P w.fs state₀ row row' := by
  obtain ⟨entries, -, hlog, -⟩ := h.entries
  rcases h.rows.find_some hfind with ⟨-, hsame⟩ | ⟨e, he, -, hr, now, hmoved⟩
  · exact ⟨row, hsame, .kept False.elim⟩
  · exact ⟨_, hmoved, ((hlog e he).2.judged hr hA now).mono False.elim⟩

/-- With at most a thousand active rows recovery judges every interrupted one. -/
theorem Recovered.reads {w w' : World} {state₀ : PersistentState}
    (h : Recovered A P w state₀ log state w') (hroom : w.db.activeCount ≤ 1000)
    (hm : row ∈ w.db.rows) (hi : row.interrupted = true) :
    ∃ e ∈ log, row.Reads e.1 := by
  obtain ⟨entries, hread, hcovers, -⟩ := h.entries
  obtain ⟨entry, he, hr⟩ := hread.of_mem
    (Database.mem_nonterminal_of_le hroom hm (Row.active_of_interrupted hi))
  obtain ⟨next, hn⟩ := hcovers entry he (hr.interrupted ▸ hi)
  exact ⟨_, hn, hr⟩

theorem Recovered.judged {w w' : World} {state₀ : PersistentState}
    (h : Recovered A P w state₀ log state w') (hA : Honest A) (hroom : w.db.activeCount ≤ 1000)
    {id : Uuid} (hfind : w.db.find id = some row) :
    ∃ row', w'.db.find id = some row' ∧ Judged (Faultless A) P w.fs state₀ row row' := by
  obtain ⟨entries, hread, hcovers, hlog⟩ := h.entries
  obtain ⟨hm, hid⟩ := Database.find_eq_some.mp hfind
  rcases h.rows.find_some hfind with ⟨hnone, hsame⟩ | ⟨e, he, -, hr, now, hmoved⟩
  · refine ⟨row, hsame, .kept fun _ => ?_⟩
    cases hi : row.interrupted with
    | false => rfl
    | true =>
      obtain ⟨e, he, hr⟩ := h.reads hroom hm hi
      exact absurd (hr.id.trans hid) (hnone e he)
  · exact ⟨_, hmoved, (hlog e he).2.judged hr hA now⟩

/-- The proposal of a row, after recovery has made `row'` of it. -/
structure Carried (row row' : Row) (found found' : Option Proposal) : Prop where
  kept : row' = row → found' = found
  absent : found = none → found' = none
  moved : row' ≠ row → ∀ p, found = some p → ∃ p', found' = some p' ∧
    (p'.revision : Int) = row'.revision ∧
    (∃ reached, p'.status.journal? = some reached ∧ row'.state = reached.asStr) ∧
    p' = { p with revision := p'.revision, status := p'.status, warning := p'.warning }

theorem Row.moved_ne (row : Row) (next : State) (now : Int) : row.moved next now ≠ row := by
  intro h
  have := congrArg Row.revision h
  simp only [Row.moved] at this
  omega

theorem verdictStatus_journal (hv : Verdict A P fs state entry next) :
    (verdictStatus next).journal? = some next := by
  rcases hv.outcome with ⟨rfl, -⟩ | rfl <;> rfl

theorem Recovered.carried {w w' : World} {state₀ : PersistentState}
    (h : Recovered A P w state₀ log state w') {id : Uuid} (hfind : w.db.find id = some row) :
    ∃ row', w'.db.find id = some row' ∧
      Carried row row' (state₀.findProposal id) (state.findProposal id) := by
  obtain ⟨entries, -, -, hlog⟩ := h.entries
  rcases h.rows.find_some hfind with ⟨hnone, hsame⟩ | ⟨e, he, rfl, hr, now, hmoved⟩
  · have := h.queue.others id hnone
    exact ⟨row, hsame, fun _ => this, fun hn => this.trans hn, fun hne => absurd rfl hne⟩
  · refine ⟨_, hmoved, fun heq => absurd heq (Row.moved_ne row e.2 now), fun hn => ?_,
      fun _ p hp => ?_⟩
    · have := h.queue.settled e he
      rwa [hn] at this
    · obtain ⟨warning, hw⟩ : ∃ warning, state.findProposal e.1.id = some { p with
          revision := e.1.revision + 1, status := verdictStatus e.2, warning } := by
        have := h.queue.settled e he
        rwa [hp] at this
      refine ⟨_, hw, ?_, ⟨e.2, verdictStatus_journal (hlog e he).2, rfl⟩, rfl⟩
      show ((e.1.revision + 1 : Nat) : Int) = row.revision + 1
      rw [← hr.revision]
      rfl

end

/-- **Recovery does not guess.** With nobody else at the files, and no call that
reports a file missing that is there, recovery changes no file and, wherever it
is cut, completes a row only on evidence and hands only interrupted rows to the
user. Finished, and with at most a thousand active rows, it has judged every
interrupted row, exactly by the evidence where no call failed, and brought its
proposal along. -/
theorem recovery_does_not_guess {P : Platform} {s : Service} {w w' : World} {ticks : List Tick}
    {rest : Sys (Except ServiceError Unit × Service)}
    (hticks : ∀ t ∈ ticks, t.Alone ∧ t.fault ≠ some .NOENT)
    (h : ((recoverWithoutGuessing P).start s).after ticks w = (rest, w')) :
    w'.fs = w.fs ∧ (∀ id, w.db.find id = none → w'.db.find id = none) ∧
    (∀ id row, w.db.find id = some row → ∃ row', w'.db.find id = some row' ∧
      Judged False P w.fs s.state row row') ∧
    ∀ s', rest = .done (.ok (), s') → w.db.activeCount ≤ 1000 →
      (∀ id row, w.db.find id = some row → ∃ row', w'.db.find id = some row' ∧
        Judged (∀ t ∈ ticks, t.Sound) P w.fs s.state row row' ∧
        Carried row row' (s.state.findProposal id) (s'.state.findProposal id)) ∧
      ∀ id, w.db.find id = none → s'.state.findProposal id = s.state.findProposal id := by
  have hA : Honest (fun t => t ∈ ticks) := hticks
  have hholds := Prog.wp_after (recover_wp (A := fun t => t ∈ ticks) (P := P) (s := s) (w := w))
    ticks fun _ ht => ht
  rw [h] at hholds
  have hstopped : (∃ log, Stopped (fun t => t ∈ ticks) P w s.state log w') →
      w'.fs = w.fs ∧ (∀ id, w.db.find id = none → w'.db.find id = none) ∧
      ∀ id row, w.db.find id = some row → ∃ row', w'.db.find id = some row' ∧
        Judged False P w.fs s.state row row' := by
    rintro ⟨log, hs⟩
    exact ⟨hs.fs hA.quiet, fun _ hn => hs.rows.find_none hn, fun _ _ hf => hs.judged hA hf⟩
  cases rest with
  | step u n =>
    obtain ⟨hfs, hnone, hsome⟩ := hstopped hholds
    exact ⟨hfs, hnone, hsome, fun s' hs' => nomatch hs'⟩
  | done r =>
    obtain ⟨r | ⟨⟨⟩⟩, s'⟩ := r
    · obtain ⟨hfs, hnone, hsome⟩ := hstopped hholds
      exact ⟨hfs, hnone, hsome, fun s' hs' => nomatch hs'⟩
    · obtain ⟨log, hr⟩ := hholds
      obtain ⟨entries, hread, -, hlog⟩ := hr.entries
      refine ⟨hr.fs hA.quiet, fun _ hn => hr.rows.find_none hn, fun id row hf => ?_, ?_⟩
      · rcases hr.rows.find_some hf with ⟨-, hsame⟩ | ⟨e, he, -, hrow, now, hmoved⟩
        · exact ⟨row, hsame, .kept False.elim⟩
        · exact ⟨_, hmoved, ((hlog e he).2.judged hrow hA now).mono False.elim⟩
      · rintro s'' hs'' hroom
        obtain rfl : s' = s'' := (Prod.mk.inj (Prog.done.inj hs'')).2
        refine ⟨fun id row hf => ?_, fun id hn => hr.queue.others id fun e he hid => ?_⟩
        · obtain ⟨row', hf', hj⟩ := hr.judged hA hroom hf
          obtain ⟨row'', hf'', hc⟩ := hr.carried hf
          obtain rfl := Option.some.inj (hf'.symm.trans hf'')
          exact ⟨row', hf', hj, hc⟩
        · obtain ⟨row, now, hfind, -⟩ := hr.rows.moved e he
          rw [hid, hn] at hfind
          cases hfind

/-- A file that was moved to `/d/a`, with a file where its old directory was. -/
def movedFromLostFolder : World :=
  let fs : FileSystem :=
    { sampleFiles with
      inodes := fun i =>
        [(⟨0, 1⟩, folder [(bytes "w", ⟨0, 2⟩), (bytes "d", ⟨0, 3⟩)]),
         (⟨0, 2⟩, file (bytes "hi")), (⟨0, 3⟩, folder [(bytes "a", ⟨0, 4⟩)]),
         ((⟨0, 4⟩ : InodeId), file (bytes "hi"))].lookup i }
  sampleWorld fs (sampleRow 5 .sourceRemoved) (sampleState [sampleProposal 3 .proposed])

/-- The source path does not exist and the destination is the proposal's file, but
the path's parent is no directory and `ENOTDIR` is not `ENOENT`: the row is
handed to the user. -/
theorem recovery_flags_lost_folder :
    (((recoverWithoutGuessing .sample).start
        (.fresh (sampleState [sampleProposal 3 .proposed]))).after (quietAt 1)
      movedFromLostFolder).1.result?.map (fun r => r.1.isOk) = some true ∧
    movedFromLostFolder.db.rows = [sampleRow 5 .sourceRemoved] ∧
    (movedFromLostFolder.fs.stat false (bytes "/w/a")).isOk = false ∧
    (∃ i inode, Plain movedFromLostFolder.fs (bytes "/d/./a") i inode (bytes "hi") ∧
      Identity.of i inode = proposalIdentity (sampleProposal 3 .proposed)) ∧
    (((recoverWithoutGuessing .sample).start
        (.fresh (sampleState [sampleProposal 3 .proposed]))).after (quietAt 1)
      movedFromLostFolder).2.db.rows.map Row.state = [State.needsAttention.asStr] :=
  ⟨by decide +kernel, rfl, by decide +kernel,
    ⟨⟨0, 4⟩, file (bytes "hi"), ⟨rfl, rfl, rfl, by decide +kernel⟩, by decide +kernel⟩,
    by decide +kernel⟩

/-- Recovery of an approved move, before anything was moved. -/
theorem recovery_does_not_guess_approved :
    ∃ (rest : Sys (Except ServiceError Unit × Service)) (w' : World) (row' : Row),
      ((recoverWithoutGuessing .sample).start
        (.fresh (sampleState [sampleProposal 2 .proposed]))).after (quietAt 1)
        (sampleWorld sampleFiles (sampleRow 3 .approved)
          (sampleState [sampleProposal 2 .proposed])) = (rest, w') ∧
      w'.fs = sampleFiles ∧ w'.db.find ⟨2⟩ = some row' ∧
      Judged (∀ t ∈ quietAt 1, t.Sound) .sample sampleFiles
        (sampleState [sampleProposal 2 .proposed]) (sampleRow 3 .approved) row' := by
  have hquiet : ∀ t ∈ quietAt 1, t.Alone ∧ t.fault ≠ some .NOENT := by
    intro t ht
    obtain rfl := List.eq_of_mem_replicate ht
    exact ⟨rfl, nofun⟩
  have hends : (((recoverWithoutGuessing .sample).start
      (.fresh (sampleState [sampleProposal 2 .proposed]))).after (quietAt 1)
      (sampleWorld sampleFiles (sampleRow 3 .approved)
        (sampleState [sampleProposal 2 .proposed]))).1.result?.any (fun a => a.1.isOk) = true := by
    decide +kernel
  have hroom : (sampleWorld sampleFiles (sampleRow 3 .approved)
      (sampleState [sampleProposal 2 .proposed])).db.activeCount ≤ 1000 := by
    decide +kernel
  cases hr : ((recoverWithoutGuessing .sample).start
      (.fresh (sampleState [sampleProposal 2 .proposed]))).after (quietAt 1)
      (sampleWorld sampleFiles (sampleRow 3 .approved)
        (sampleState [sampleProposal 2 .proposed])) with
  | mk rest w' =>
    rw [hr] at hends
    obtain ⟨hfs, -, -, hdone⟩ := recovery_does_not_guess hquiet hr
    cases rest with
    | step u n => cases hends
    | done a =>
      obtain ⟨e | ⟨⟨⟩⟩, s'⟩ := a
      · cases hends
      · obtain ⟨row', hfind, hj, -⟩ := (hdone s' rfl hroom).1 ⟨2⟩ (sampleRow 3 .approved) rfl
        exact ⟨_, w', row', rfl, hfs, hfind, hj⟩

/-! ## Nothing is missed -/

section
variable {P : Platform} {w w' : World} {log : Verdicts} {state₀ state : PersistentState}
  {A : Tick → Prop}

theorem Recovered.none_interrupted (h : Recovered A P w state₀ log state w')
    (hroom : w.db.activeCount ≤ 1000) {row' : Row} (hm : row' ∈ w'.db.rows) :
    row'.interrupted = false := by
  obtain ⟨entries, -, -, hlog⟩ := h.entries
  have hfind' := Database.find_of_mem hm
  cases hfind : w.db.find row'.id with
  | none =>
    rw [h.rows.find_none hfind] at hfind'
    cases hfind'
  | some row =>
    rcases h.rows.find_some hfind with ⟨hnone, hsame⟩ | ⟨e, he, -, -, now, hmoved⟩
    · obtain rfl := Option.some.inj (hfind'.symm.trans hsame)
      by_contra hi
      obtain ⟨e, he, hr⟩ := h.reads hroom (Database.find_eq_some.mp hfind).1
        (Bool.eq_true_of_not_eq_false hi)
      exact hnone e he hr.id
    · rw [Option.some.inj (hfind'.symm.trans hmoved),
        @Row.interrupted_of_state (row.moved e.2 now) _ rfl]
      rcases (hlog e he).2.outcome with ⟨ho, -⟩ | ho <;> rw [ho] <;> rfl

theorem Recovered.moves_interrupted (h : Recovered A P w state₀ log state w')
    (hroom : w.db.activeCount ≤ 1000) {row : Row} (hm : row ∈ w.db.rows)
    (hi : row.interrupted = true) : ∃ next now, w'.db.find row.id = some (row.moved next now) ∧
      (next = .completed ∨ next = .needsAttention) := by
  obtain ⟨entries, -, -, hlog⟩ := h.entries
  obtain ⟨e, he, hr⟩ := h.reads hroom hm hi
  obtain ⟨row', now, hfind, -, hmoved⟩ := h.rows.moved e he
  obtain rfl := Option.some.inj ((hr.id ▸ Database.find_of_mem hm).symm.trans hfind)
  exact ⟨e.2, now, hr.id ▸ hmoved, (hlog e he).2.outcome.imp_left And.left⟩

end

/-- Undo is only served while fewer than a thousand rows are active. -/
def UndoHasRoom (m : Machine) (event : Event) : Prop :=
  ∀ id revision, event.call = some (.undo id revision) → m.world.db.activeCount < 1000

theorem RunWhere.orderly {P : Platform} {fs : FileSystem} {events : List Event} {m : Machine}
    (h : RunWhere P UndoHasRoom (Machine.initial fs) events m) : m.Orderly P [] 1000 := by
  induction h with
  | nil => exact Machine.initial_orderly fs
  | snoc _ hroom hstep ih =>
    refine (hstep.orderly ih (Nat.le_refl _) fun call hcall => ?_).1
    unfold Call.Fits
    split
    · exact hroom _ _ hcall
    · trivial

theorem Step.reopened {P : Platform} {m m' : Machine} (h : Step P m .opened m') :
    ∃ s loaded w₁ log, m'.service = some s ∧
      Reopened (fun _ => True) P m.world loaded w₁ log s m'.world := by
  cases h with
  | @opened w w' s ticks h =>
    have := Prog.wp_after (open_does (A := fun _ => True) (P := P) (w := w)) ticks fun _ _ => trivial
    rw [h] at this
    obtain ⟨loaded, w₁, log, hr⟩ := this
    exact ⟨s, loaded, w₁, log, rfl, hr⟩

/-- An open settles what a crash left behind, where it reads all active rows. -/
theorem Step.opened_settles {P : Platform} {m m' : Machine} (hopen : Step P m .opened m')
    (hroom : m.world.db.activeCount ≤ 1000) {row : Row} (hm : row ∈ m.world.db.rows)
    (hi : row.interrupted = true) : ∃ row' ∈ m'.world.db.rows, row'.id = row.id ∧
      (row'.state = State.completed.asStr ∨ row'.state = State.needsAttention.asStr) := by
  obtain ⟨s, loaded, w₁, log, -, -, hret, hrec⟩ := hopen.reopened
  have hroom : w₁.db.activeCount ≤ 1000 := hret.db.activeCount ▸ hroom
  have hm₁ := hret.db.mem_active hm (Row.active_of_interrupted hi)
  obtain ⟨next, now, hfind, hnext⟩ := hrec.moves_interrupted hroom hm₁ hi
  obtain ⟨hm', hid⟩ := Database.find_eq_some.mp hfind
  refine ⟨_, hm', hid, ?_⟩
  rcases hnext with rfl | rfl
  · exact .inl rfl
  · exact .inr rfl

/-- **Recovery misses nothing** in a run whose undos all find room: after every
open no row is left in a state of a crash, and each that was is completed or
handed to the user. -/
theorem open_leaves_none_interrupted {P : Platform} {fs : FileSystem} {events : List Event}
    {m m' : Machine} (h : RunWhere P UndoHasRoom (Machine.initial fs) events m)
    (hopen : Step P m .opened m') :
    (∀ row ∈ m'.world.db.rows, row.interrupted = false) ∧
    ∀ row ∈ m.world.db.rows, row.interrupted = true → ∃ row' ∈ m'.world.db.rows,
      row'.id = row.id ∧
        (row'.state = State.completed.asStr ∨ row'.state = State.needsAttention.asStr) := by
  have hroom := h.orderly.durable.active
  obtain ⟨_, _, _, _, -, -, hret, hrec⟩ := hopen.reopened
  refine ⟨fun row hm => ?_, fun row hm hi => hopen.opened_settles hroom hm hi⟩
  exact hrec.none_interrupted (hret.db.activeCount ▸ hroom) hm

/-- A run without an undo. -/
theorem Run.undoless {P : Platform} {m m' : Machine} {events : List Event} (h : Run P m events m')
    (hcalls : events.all (fun event => !(event.call.any fun call => call matches .undo _ _)) = true) :
    RunWhere P UndoHasRoom m events m' := by
  apply h.meets
  intro event he m id revision hcall
  have := List.all_eq_true.mp hcalls event he
  rw [hcall] at this
  cases this

/-- An approval cut after its intent, and the next open. -/
theorem open_leaves_none_interrupted_approved :
    ∃ (events : List Event) (m m' : Machine),
      RunWhere .sample UndoHasRoom (Machine.initial sampleFiles) events m ∧
      Step .sample m .opened m' ∧
      m.world.db.rows.map Row.interrupted = [true] ∧
      (∀ row ∈ m'.world.db.rows, row.interrupted = false) ∧
      ∀ row ∈ m.world.db.rows, row.interrupted = true → ∃ row' ∈ m'.world.db.rows,
        row'.id = row.id ∧
          (row'.state = State.completed.asStr ∨ row'.state = State.needsAttention.asStr) := by
  obtain ⟨events, m, m', hrun, htest, hopen⟩ := exists_opened (P := .sample)
    (m := Machine.initial sampleFiles)
    (Command.enrol (bytes "/d") ++
      [.serve (.chooseDestination ⟨2⟩ 1 ⟨1⟩ ".") (quietAt 3),
       .cut (.approve ⟨2⟩ 2) ((quietAt 4).take 20)])
    (quietAt 5)
    (fun events m =>
      events.all (fun event => !(event.call.any fun call => call matches .undo _ _)) &&
      decide (m.world.db.rows.map Row.interrupted = [true]))
    (by decide +kernel)
  obtain ⟨hcalls, hrows⟩ := Bool.and_eq_true_iff.mp htest
  obtain ⟨hnone, hall⟩ := open_leaves_none_interrupted (hrun.undoless hcalls) hopen
  exact ⟨events, m, m', hrun.undoless hcalls, hopen, of_decide_eq_true hrows, hnone, hall⟩

/-! ## Queue and journal after an open -/

/-- The proposal has its row's revision, and the status its row's state stands for. -/
def Agrees (p : Proposal) (row : Row) : Prop :=
  (p.revision : Int) = row.revision ∧
    ∃ reached, p.status.journal? = some reached ∧ row.state = reached.asStr

/-- `state.json` has what the journal has, for every row recovery will leave alone. -/
def UpToDate (w : World) : Prop :=
  ∀ file state, w.stateJson = some file → file.content = some state → ∀ p ∈ state.proposals,
    ∀ row ∈ w.db.rows, row.id = p.id → row.interrupted = false → Agrees p row

theorem PersistentState.findProposal_of_mem {state : PersistentState} {p : Proposal}
    (hd : (state.proposals.map Proposal.id).Nodup) (hm : p ∈ state.proposals) :
    state.findProposal p.id = some p := by
  unfold PersistentState.findProposal
  cases hf : state.proposals.find? fun q => q.id = p.id with
  | none => exact absurd (List.find?_eq_none.mp hf p hm) (by simp)
  | some q =>
    have hid : q.id = p.id := by simpa using List.find?_some hf
    rw [List.inj_on_of_nodup_map hd (List.mem_of_find?_eq_some hf) hm hid]

/-- **The open brings queue and journal together**, when `state.json` was up to
date for the rows recovery leaves alone. -/
theorem open_reconciles {P : Platform} {fs : FileSystem} {events : List Event} {m m' : Machine}
    (h : RunWhere P UndoHasRoom (Machine.initial fs) events m) (hcur : UpToDate m.world)
    (hopen : Step P m .opened m') {s : Service} (hs : m'.service = some s) :
    ∀ p ∈ s.state.proposals, ∀ row ∈ m'.world.db.rows, row.id = p.id → Agrees p row := by
  obtain ⟨s', loaded, w₁, log, hs', hloaded, hret, hrec⟩ := hopen.reopened
  obtain rfl := Option.some.inj (hs.symm.trans hs')
  have hroom : w₁.db.activeCount ≤ 1000 := hret.db.activeCount ▸ h.orderly.durable.active
  intro p hp row' hm' hid
  have hdistinct : (loaded.proposals.map Proposal.id).Nodup := by
    rcases hloaded with ⟨rfl, -⟩ | ⟨file, hf, hc⟩
    · exact List.nodup_nil
    · exact (h.orderly.durable.saved file loaded hf hc).distinct
  have hsub : loaded.pruned.proposals.Sublist loaded.proposals := dropTerminal_sublist _ _
  have hnodup : (s.state.proposals.map Proposal.id).Nodup := by
    rw [hrec.queue.ids]
    exact (hsub.map Proposal.id).nodup hdistinct
  have hfound := PersistentState.findProposal_of_mem hnodup hp
  have hfind' : m'.world.db.find p.id = some row' := Database.find_eq_some.mpr ⟨hm', hid⟩
  cases hfind : w₁.db.find p.id with
  | none =>
    rw [hrec.rows.find_none hfind] at hfind'
    cases hfind'
  | some row =>
    obtain ⟨row'', hf, hc⟩ := hrec.carried hfind
    obtain rfl := Option.some.inj (hfind'.symm.trans hf)
    by_cases hsame : row' = row
    · -- a row that recovery has left alone
      subst hsame
      have hp₀ : loaded.pruned.findProposal p.id = some p := (hc.kept rfl).symm.trans hfound
      have hp₁ : p ∈ loaded.proposals := hsub.subset (List.mem_of_find?_eq_some hp₀)
      rcases hloaded with ⟨rfl, -⟩ | ⟨file, hf, hcontent⟩
      · cases hp₁
      · exact hcur file loaded hf hcontent p hp₁ row'
          (hret.db.mem (Database.find_eq_some.mp hfind).1) hid (hrec.none_interrupted hroom hm')
    · -- a row it has judged
      cases hp₀ : loaded.pruned.findProposal p.id with
      | none =>
        rw [hc.absent hp₀] at hfound
        cases hfound
      | some p₀ =>
        obtain ⟨p', hp', hrev, hstatus, -⟩ := hc.moved hsame p₀ hp₀
        obtain rfl := Option.some.inj (hfound.symm.trans hp')
        exact ⟨hrev, hstatus⟩

/-- An `ignore` cut after its journal commit: the proposal is left behind its row
by the open, and any request that shows its revision would be refused. -/
theorem open_leaves_ignored_behind :
    ∃ (m : Machine) (s : Service),
      Run .sample (Machine.initial sampleFiles)
        [.opened, .answered (.addRoot (bytes "/w") true false) true,
         .answered (.addRoot (bytes "/d") false true) true, .answered .scanOnce true,
         .answered .scanOnce true, .died (some (.ignore ⟨2⟩ 1)), .opened] m ∧
      m.service = some s ∧
      ∃ p ∈ s.state.proposals, ∃ row ∈ m.world.db.rows, row.id = p.id ∧ ¬ Agrees p row := by
  obtain ⟨events, m, hrun, htest⟩ := exists_run (P := .sample) (m := Machine.initial sampleFiles)
    (Command.enrol (bytes "/d") ++
      [.cut (.ignore ⟨2⟩ 1) ((quietAt 3).take 3), .start (quietAt 4)])
    (fun events m =>
      decide (events = [.opened, .answered (.addRoot (bytes "/w") true false) true,
        .answered (.addRoot (bytes "/d") false true) true, .answered .scanOnce true,
        .answered .scanOnce true, .died (some (.ignore ⟨2⟩ 1)), .opened]) &&
      m.service.any fun s => s.state.proposals.any fun p => m.world.db.rows.any fun row =>
        row.id = p.id && (p.revision : Int) ≠ row.revision)
    (by decide +kernel)
  obtain ⟨hevents, hbehind⟩ := Bool.and_eq_true_iff.mp htest
  obtain rfl := of_decide_eq_true hevents
  cases hs : m.service with
  | none => rw [hs] at hbehind; cases hbehind
  | some s =>
    rw [hs] at hbehind
    obtain ⟨p, hp, hbehind⟩ := List.any_eq_true.mp hbehind
    obtain ⟨row, hm, hbehind⟩ := List.any_eq_true.mp hbehind
    simp only [Bool.and_eq_true, decide_eq_true_eq] at hbehind
    exact ⟨m, s, hrun, hs, p, hp, row, hm, hbehind.1, fun hag => hbehind.2 hag.1⟩

instance (p : Proposal) (row : Row) : Decidable (Agrees p row) :=
  decidable_of_iff ((p.revision : Int) = row.revision ∧
    p.status.journal?.any (fun reached => row.state = reached.asStr) = true) (by
      unfold Agrees
      cases p.status.journal? <;> simp)

/-- An approval cut after its intent: the open brings its proposal along. -/
theorem open_reconciles_approved :
    ∃ (events : List Event) (m m' : Machine) (s : Service),
      RunWhere .sample UndoHasRoom (Machine.initial sampleFiles) events m ∧ UpToDate m.world ∧
      Step .sample m .opened m' ∧ m'.service = some s ∧
      ∀ p ∈ s.state.proposals, ∀ row ∈ m'.world.db.rows, row.id = p.id → Agrees p row := by
  obtain ⟨events, m, m', hrun, htest, hopen⟩ := exists_opened (P := .sample)
    (m := Machine.initial sampleFiles)
    (Command.enrol (bytes "/d") ++
      [.serve (.chooseDestination ⟨2⟩ 1 ⟨1⟩ ".") (quietAt 3),
       .cut (.approve ⟨2⟩ 2) ((quietAt 4).take 20)])
    (quietAt 5)
    (fun events m =>
      events.all (fun event => !(event.call.any fun call => call matches .undo _ _)) &&
      m.world.stateJson.all fun file => file.content.all fun state =>
        state.proposals.all fun p => m.world.db.rows.all fun row =>
          decide (row.id = p.id → row.interrupted = false → Agrees p row))
    (by decide +kernel)
  obtain ⟨hcalls, hcurrent⟩ := Bool.and_eq_true_iff.mp htest
  have hup : UpToDate m.world := by
    intro file state hf hc p hp row hm
    rw [hf] at hcurrent
    simp only [Option.all_some, hc, List.all_eq_true, decide_eq_true_eq] at hcurrent
    exact hcurrent p hp row hm
  obtain ⟨s, -, -, -, hs, -⟩ := hopen.reopened
  exact ⟨events, m, m', s, hrun.undoless hcalls, hup, hopen, hs,
    open_reconciles (hrun.undoless hcalls) hup hopen hs⟩

end SortingHat
