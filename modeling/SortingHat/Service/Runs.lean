import SortingHat.Replay
import SortingHat.Service.Requests
import SortingHat.Service.Steps

/-!
# What every run keeps

* `open_wp`: an open, whole or cut, keeps the queue in order;
* `Step.orderly`, `Run.orderly`: so does every step and every run;
* `queue_behind_journal`: the queue never runs ahead of the journal;
* `accepted_once`: a revision authorises at most one action.
-/

namespace SortingHat
open Posix Effect
open Journal (Row Database State)

section
variable {P : Platform} {kept : List Row} {room : Nat} {s : Service} {w : World}

/-! ## Opening -/

theorem serves_settle {id : Uuid} {f : Proposal → Proposal} {Q : Unit → Service → World → Prop}
    (h : Orderly P kept room s w) (hid : ∀ p, (f p).id = p.id)
    (ht : ∀ p, p ∈ s.state.proposals → p.id = id → Trails w.db (f p))
    (hQ : Q () { s with state := s.state.settle id f } w) :
    Serves P kept room (modifyState fun state => state.settle id f) Q s w := by
  refine serves_modifyState h ?_ hQ
  unfold PersistentState.settle
  split
  · next index hindex =>
    obtain ⟨hlt, hhit, -⟩ := List.findIdx?_eq_some_iff_getElem.mp hindex
    refine h.trails.modify hid fun p hp => ht p (List.mem_of_getElem? hp) ?_
    obtain rfl : s.state.proposals[index] = p :=
      Option.some.inj ((List.getElem?_eq_getElem hlt).symm.trans hp)
    simpa using hhit
  · exact h.trails

theorem serves_completeEntry (entry : Journal.Entry) (h : Orderly P kept room s w) :
    Serves P kept room (completeEntry entry) Any s w := by
  unfold completeEntry
  refine serves_bind (serves_advance (by decide) h fun c completed db _ _ hstands h => ?_)
  refine serves_settle h (fun _ => rfl) (fun p _ hid => ?_) trivial
  exact hstands.trails h.coherent hid rfl fun other ho => (Option.some.inj ho).symm

theorem serves_flagEntry (entry : Journal.Entry) (h : Orderly P kept room s w) :
    Serves P kept room (flagEntry P entry) Any s w := by
  unfold flagEntry
  refine serves_bind (serves_advance (by decide) h fun c updated db _ _ hstands h => ?_)
  refine serves_bind (serves_settle h (fun _ => rfl) (fun p _ hid => ?_) fun h => ?_)
  · exact hstands.trails h.coherent hid rfl fun other ho => (Option.some.inj ho).symm
  refine serves_bind (serves_get h fun h => ?_)
  split
  · refine serves_bind (serves_files h fun warning fs h => ?_)
    refine serves_settle h (fun _ => rfl) (fun p hp _ => ?_) trivial
    exact (h.trails.each p hp).raise rfl rfl (Nat.le_refl _) (h.trails.each p hp).bounded
  · exact serves_pure h trivial

theorem serves_recoverEntry (entry : Journal.Entry) (h : Orderly P kept room s w) :
    Serves P kept room (recoverEntry P entry) Any s w := by
  unfold recoverEntry
  refine serves_bind (Serves.mono (Q := Any) ?_ fun done s' w' _ _ h => ?_)
  · split
    · unfold moveEvidence
      refine serves_bind (serves_files h fun absent fs₁ h => ?_)
      refine serves_bind (serves_get h fun h => ?_)
      refine serves_bind (Serves.mono (Q := Any) ?_ fun _ _ _ _ _ h => serves_pure h trivial)
      split
      · exact serves_files h fun _ _ => trivial
      · exact serves_pure h trivial
    · exact serves_pure h trivial
  split
  · exact serves_completeEntry entry h
  · split
    · exact serves_flagEntry entry h
    · exact serves_pure h trivial

theorem serves_recover (h : Orderly P kept room s w) :
    Serves P kept room (recoverWithoutGuessing P) Any s w := by
  unfold recoverWithoutGuessing
  refine serves_bind ⟨(wpS_embed _ _).mpr ((wpE_inPart _ _).mpr ?_)⟩
  refine Journal.nonterminal_reads.wpE h.toDurable (fun _ => h) fun entries _ => ⟨h, fun h => ?_⟩
  refine serves_bind ((serves_forM (fun entry _ _ h => serves_recoverEntry entry h) entries h).mono
    fun _ _ _ _ _ h => ?_)
  exact serves_save h fun _ _ _ => trivial

theorem serves_settleIn (h : Orderly P kept room s w) :
    Serves P kept room (Service.settleIn P) Any s w := by
  unfold Service.settleIn
  refine serves_bind (serves_retention h fun db _ h => ?_)
  exact serves_bind (serves_pruneProposals h fun _ h => serves_recover h)

/-- What is loaded: what was saved, or nothing where nothing is saved or the call
that asks fails. -/
def Loaded (A : Tick → Prop) (stored : Option StateFile) (state : PersistentState) : Prop :=
  (state = PersistentState.initial ∧ (Faultless A → stored = none)) ∨
    ∃ file, stored = some file ∧ file.content = some state

/-- The same, with the call that failed. -/
def Recalled (A : Tick → Prop) (stored : Option StateFile) (state : PersistentState) : Prop :=
  (state = PersistentState.initial ∧ (stored = none ∨ ∃ t, A t ∧ t.fault ≠ none)) ∨
    ∃ file, stored = some file ∧ file.content = some state

theorem Recalled.mono {A B : Tick → Prop} {stored : Option StateFile} {state : PersistentState}
    (h : Recalled A stored state) (hAB : ∀ t, A t → B t) : Recalled B stored state := by
  rcases h with ⟨hs, hn | ⟨t, ht, hfault⟩⟩ | h
  · exact .inl ⟨hs, .inl hn⟩
  · exact .inl ⟨hs, .inr ⟨t, hAB t ht, hfault⟩⟩
  · exact .inr h

theorem readState_reads {A : Tick → Prop} : Reads A readState (fun stored state =>
    ∃ file, stored = some file ∧ file.content = some state) := by
  have hread : Reads A (recast ServiceError.io readStateFile) (fun stored file =>
      stored = some file) := by
    refine Reads.recast _ (Reads.atomic fun t stored file _ h => ?_)
    split at h <;> simp_all
  unfold readState
  refine (hread.bind fun file => (Reads.failIf _ _).bind fun _ => hread.bind fun file =>
    (Reads.orFail _ _).bind fun state => (Reads.failIf _ _).bind fun _ => Reads.pure state).mono ?_
  rintro stored _ ⟨_, -, -, -, file, hf, state, hs, -, -, rfl⟩
  exact ⟨file, hf, hs⟩

theorem loadState_recalls {A : Tick → Prop} : Reads A loadState (Recalled A) := by
  have hexists : Reads A (recast ServiceError.io stateExists) (fun stored present =>
      present = false → stored = none ∨ ∃ t, A t ∧ t.fault ≠ none) := by
    refine Reads.recast _ (Reads.atomic fun t stored present ht h habsent => ?_)
    obtain rfl := Except.ok.inj h
    cases hf : t.fault with
    | some e => exact .inr ⟨t, ht, by rw [hf]; nofun⟩
    | none =>
      rw [hf] at habsent
      cases stored with
      | none => exact .inl rfl
      | some file => cases habsent
  unfold loadState
  refine (hexists.bind (R := fun present stored state =>
    (state = PersistentState.initial ∧ present = false) ∨
      ∃ file, stored = some file ∧ file.content = some state) fun present => ?_).mono ?_
  · cases present with
    | true => exact readState_reads.mono fun _ _ h => .inr h
    | false => exact (Reads.pure _).mono fun _ _ h => .inl ⟨h, rfl⟩
  · rintro stored state ⟨present, hp, ⟨hs, rfl⟩ | h⟩
    · exact .inl ⟨hs, hp rfl⟩
    · exact .inr h

theorem loadState_reads {A : Tick → Prop} : Reads A loadState (Loaded A) := by
  refine loadState_recalls.mono fun stored state h => ?_
  rcases h with ⟨hs, hn⟩ | h
  · refine .inl ⟨hs, fun hf => ?_⟩
    rcases hn with hn | ⟨t, ht, hfault⟩
    · exact hn
    · exact absurd (hf t ht).2 hfault
  · exact .inr h

/-- **An open keeps the queue in order**, wherever it fails or is cut. -/
theorem open_wp (h : Durable P kept room w) :
    wpE (fun _ => True) (Service.open P) (fun s w' => Orderly P kept room s w')
      (fun _ w' => Durable P kept room w') (Durable P kept room) w := by
  unfold Service.open
  refine (wpE_bind _ _).mpr ((wpE_recast _ _).mpr ((wpE_inPart _ _).mpr
    (Prog.wp_trivial ?_ fun fs => h.files fs)))
  rintro (e | ⟨⟩) fs
  · exact h.files fs
  have h := h.files fs
  refine (wpE_bind _ _).mpr (loadState_reads.inPart.wpE h (fun _ => h) fun state hstate => ?_)
  unfold Service.openWith
  refine (wpE_bind _ _).mpr ((Reads.recast _ (Journal.query_reads _).inPart).wpE h (fun _ => h)
    fun _ _ => ?_)
  have ho : Orderly P kept room (Service.fresh state) (World.files.put fs w) := by
    refine ⟨h, ?_⟩
    rcases hstate with ⟨rfl, -⟩ | ⟨file, hf, hs⟩
    · exact .nil
    · exact h.saved file state hf hs
  refine (wpE_bind _ _).mpr ((wpE_within _).mpr ?_)
  exact wpS_mono (serves_settleIn ho).wp (fun _ _ _ hr => hr.1) (fun _ _ _ hr => hr.toDurable)
    fun _ hr => hr

end

/-! ## Steps and runs -/

/-- The invariant on a machine, whether its service runs or not. -/
def Machine.Orderly (P : Platform) (kept : List Row) (room : Nat) (m : Machine) : Prop :=
  match m.service with
  | some s => SortingHat.Orderly P kept room s m.world
  | none => Durable P kept room m.world

/-- The request an event is about. -/
def Event.call : Event → Option Call
  | .answered call _ => some call
  | .died call => call
  | _ => none

section
variable {P : Platform} {kept : List Row} {room : Nat} {m m' : Machine} {event : Event}

theorem Machine.Orderly.durable (h : m.Orderly P kept room) : Durable P kept room m.world := by
  unfold Machine.Orderly at h
  split at h
  · exact h.toDurable
  · exact h

theorem Step.orderly (h : Step P m event m') (ho : m.Orderly P kept room)
    (hroom : Journal.maxActive ≤ room)
    (hfits : ∀ call, event.call = some call → call.Fits room m.world.db) :
    m'.Orderly P kept room ∧ ∀ call id revision, event = .answered call true →
      call.presents = some (id, revision) → Spent kept id revision m'.world := by
  have hcuts : ∀ {call : Call} {s : Service} {w : World} (ticks : List Tick),
      SortingHat.Orderly P kept room s w → call.Fits room w.db → Prog.Holds _ _
        (((call.perform P).start s).after ticks w) := fun ticks ho hf =>
    Prog.wp_after (Call.perform_serves _ hroom hf ho).wp ticks fun _ _ => trivial
  cases h with
  | @served w w' s s' call ticks r h =>
    have := hcuts ticks ho (hfits call rfl)
    rw [h] at this
    cases r with
    | error e =>
      exact ⟨this, fun call id revision he => by cases he⟩
    | ok a =>
      refine ⟨this.1, fun call' id revision he hp => ?_⟩
      obtain rfl : call = call' := by
        injection he
      exact this.2 id revision hp
  | @cut w w' s call ticks rest h =>
    have := hcuts ticks ho (hfits call rfl)
    rw [h] at this
    refine ⟨?_, fun call id revision he => by cases he⟩
    cases rest with
    | step u n => exact this
    | done r =>
      obtain ⟨r, s'⟩ := r
      cases r with
      | error e => exact this.toDurable
      | ok a => exact this.1.toDurable
  | ended => exact ⟨ho.toDurable, fun call id revision he => by cases he⟩
  | @opened w w' s ticks h =>
    have := Prog.wp_after (open_wp ho) ticks fun _ _ => trivial
    rw [h] at this
    exact ⟨this, fun call id revision he => by cases he⟩
  | @stopped w w' ticks rest h =>
    have := Prog.wp_after (open_wp ho) ticks fun _ _ => trivial
    rw [h] at this
    refine ⟨?_, fun call id revision he => by cases he⟩
    cases rest with
    | step u n => exact this
    | done r =>
      cases r with
      | error e => exact this
      | ok a => exact this.toDurable
  | @files w service fs =>
    refine ⟨?_, fun call id revision he => by cases he⟩
    cases service with
    | none => exact Durable.files ho fs
    | some s => exact SortingHat.Orderly.files ho fs

theorem Machine.Orderly.room_mono {room' : Nat} (h : m.Orderly P kept room) (hle : room ≤ room') :
    m.Orderly P kept room' := by
  have hd : ∀ {w : World}, Durable P kept room w → Durable P kept room' w := fun hd =>
    ⟨hd.coherent, hd.known, hd.grown, hd.active.trans hle, hd.saved⟩
  obtain ⟨w, service⟩ := m
  cases service with
  | none => exact hd h
  | some s => exact ⟨hd h.durable, SortingHat.Orderly.trails h⟩

theorem Machine.Orderly.rebase (h : m.Orderly P kept room) :
    m.Orderly P m.world.db.commits room := by
  obtain ⟨w, service⟩ := m
  cases service with
  | none => exact Durable.rebase h
  | some s => exact ⟨h.durable.rebase, SortingHat.Orderly.trails h⟩

theorem Machine.initial_orderly (fs : FileSystem) : (Machine.initial fs).Orderly P [] room where
  coherent := .empty
  known c hc := by cases hc
  grown c hc := by cases hc
  active := Nat.zero_le _
  saved file state hf := by cases hf

/-- Any request fits when there is room for one more active row. -/
theorem Call.fits_succ {db : Database} (call : Call) (h : db.activeCount ≤ room) :
    call.Fits (room + 1) db := by
  unfold Call.Fits
  split
  · exact Nat.succ_le_succ h
  · trivial

/-- Every reachable machine is in order, with some bound on its active rows. -/
theorem Run.orderly {fs : FileSystem} {events : List Event}
    (h : Run P (Machine.initial fs) events m) :
    ∃ room, Journal.maxActive ≤ room ∧ m.Orderly P [] room := by
  induction h with
  | nil => exact ⟨_, Nat.le_refl _, Machine.initial_orderly fs⟩
  | snoc _ hstep ih =>
    obtain ⟨room, hroom, ho⟩ := ih
    refine ⟨room + 1, Nat.le_succ_of_le hroom, (hstep.orderly (ho.room_mono (Nat.le_succ _))
      (Nat.le_succ_of_le hroom) fun call _ => call.fits_succ ho.durable.active).1⟩

/-- **The queue never runs ahead of the journal**, in memory or in `state.json`,
in any state a run reaches: no proposal is beyond its row, and its status is one
that the row's history had reached by the proposal's revision. -/
theorem queue_behind_journal {fs : FileSystem} {events : List Event}
    (h : Run P (Machine.initial fs) events m) {state : PersistentState}
    (hstate : (∃ s, m.service = some s ∧ s.state = state) ∨
      ∃ file, m.world.stateJson = some file ∧ file.content = some state) :
    ∀ p ∈ state.proposals,
      (∀ row ∈ m.world.db.rows, row.id = p.id → (p.revision : Int) ≤ row.revision) ∧
      ∀ reached, p.status.journal? = some reached →
        ∃ c ∈ m.world.db.history p.id, c.state = reached.asStr ∧ c.revision ≤ (p.revision : Int) := by
  obtain ⟨room, -, ho⟩ := h.orderly
  have htrails : Trailing m.world.db state.proposals := by
    rcases hstate with ⟨s, hs, rfl⟩ | ⟨file, hf, hc⟩
    · unfold Machine.Orderly at ho
      rw [hs] at ho
      exact ho.trails
    · exact ho.durable.saved file state hf hc
  intro p hp
  refine ⟨(htrails.each p hp).bounded, fun reached hr => ?_⟩
  obtain ⟨c, hc, hid, hrev, hstate⟩ := (htrails.each p hp).reached
  exact ⟨c, Database.mem_history.mpr ⟨hc, hid⟩, hstate reached hr, hrev⟩

/-- A run that approves a file. -/
theorem queue_behind_journal_approved :
    ∃ (events : List Event) (m : Machine) (s : Service),
      Run .sample (Machine.initial sampleFiles) events m ∧ m.service = some s ∧
      s.state.proposals.map Proposal.status = [.completed] ∧
      ∀ p ∈ s.state.proposals,
        (∀ row ∈ m.world.db.rows, row.id = p.id → (p.revision : Int) ≤ row.revision) ∧
        ∀ reached, p.status.journal? = some reached →
          ∃ c ∈ m.world.db.history p.id,
            c.state = reached.asStr ∧ c.revision ≤ (p.revision : Int) := by
  obtain ⟨events, m, hrun, htest⟩ := exists_run (P := .sample) (m := Machine.initial sampleFiles)
    (Command.enrol (bytes "/d") ++
      [.serve (.chooseDestination ⟨2⟩ 1 ⟨1⟩ ".") (quietAt 3),
       .serve (.approve ⟨2⟩ 2) (quietAt 4)])
    (fun _ m => m.service.any fun s => s.state.proposals.map Proposal.status = [.completed])
    (by decide +kernel)
  cases hs : m.service with
  | none => rw [hs] at htest; cases htest
  | some s =>
    rw [hs] at htest
    exact ⟨events, m, s, hrun, hs, of_decide_eq_true htest,
      queue_behind_journal hrun (.inl ⟨s, hs, rfl⟩)⟩

/-- An accepted request that presents this id and revision. -/
def Event.accepts (id : Uuid) (revision : Nat) : Event → Bool
  | .answered call true => call.presents = some (id, revision)
  | _ => false

theorem Event.accepts_eq_true {id : Uuid} {revision : Nat}
    (h : event.accepts id revision = true) :
    ∃ call, event = .answered call true ∧ call.presents = some (id, revision) := by
  unfold Event.accepts at h
  split at h
  · next call => exact ⟨call, rfl, by simpa using h⟩
  · cases h

/-- **A revision authorises at most one action**, over any run, with failures,
crashes and restarts in between. -/
theorem accepted_once {fs : FileSystem} {events : List Event}
    (h : Run P (Machine.initial fs) events m) (id : Uuid) (revision : Nat) :
    (events.filter (Event.accepts id revision)).length ≤ 1 := by
  -- an acceptance leaves a commit of the next revision behind
  suffices (events.filter (Event.accepts id revision)).length ≤ 1 ∧
      (events.filter (Event.accepts id revision) ≠ [] →
        ∃ c ∈ m.world.db.commits, c.id = id ∧ c.revision = (revision + 1 : Int)) from this.1
  induction h with
  | nil => exact ⟨Nat.zero_le _, fun hne => absurd rfl hne⟩
  | @snoc events event m m' hrun hstep ih =>
    obtain ⟨room, hroom, ho⟩ := hrun.orderly
    obtain ⟨ho', hspent⟩ := hstep.orderly (ho.room_mono (Nat.le_succ room)).rebase
      (Nat.le_succ_of_le hroom) fun call _ => call.fits_succ ho.durable.active
    rw [List.filter_append]
    cases he : event.accepts id revision with
    | false =>
      simp only [List.filter_cons, he, List.filter_nil, Bool.false_eq_true, if_false,
        List.append_nil]
      refine ⟨ih.1, fun hne => ?_⟩
      obtain ⟨c, hc, hrest⟩ := ih.2 hne
      exact ⟨c, ho'.durable.grown c hc, hrest⟩
    | true =>
      obtain ⟨call, hcall, hp⟩ := Event.accepts_eq_true he
      obtain ⟨c, hc, hspends⟩ := hspent call id revision hcall hp
      have hnone : events.filter (Event.accepts id revision) = [] := by
        by_contra hne
        obtain ⟨old, hold, hoid, hor⟩ := ih.2 hne
        have := hspends.before old hold hoid
        omega
      rw [hnone]
      simp only [List.filter_cons, he, List.filter_nil, if_true, List.nil_append]
      exact ⟨Nat.le_refl 1, fun _ => ⟨c, hc, hspends.same, hspends.next⟩⟩

/-- A run that presents a revision twice, and a crash in between. -/
theorem accepted_once_approved :
    ∃ (events : List Event) (m : Machine), Run .sample (Machine.initial sampleFiles) events m ∧
      (events.filter fun event => event.call = some (.approve ⟨2⟩ 2)).length = 2 ∧
      (events.filter (Event.accepts ⟨2⟩ 2)).length ≤ 1 := by
  obtain ⟨events, m, hrun, htest⟩ := exists_run (P := .sample) (m := Machine.initial sampleFiles)
    (Command.enrol (bytes "/d") ++
      [.serve (.chooseDestination ⟨2⟩ 1 ⟨1⟩ ".") (quietAt 3),
       .serve (.approve ⟨2⟩ 2) (quietAt 4), .cut .disableAgent [], .start (quietAt 5),
       .serve (.approve ⟨2⟩ 2) (quietAt 6)])
    (fun events _ => (events.filter fun event => event.call = some (.approve ⟨2⟩ 2)).length = 2)
    (by decide +kernel)
  exact ⟨events, m, hrun, of_decide_eq_true htest, accepted_once hrun ⟨2⟩ 2⟩

end
end SortingHat
