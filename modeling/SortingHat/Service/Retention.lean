import SortingHat.Service.Endings

/-!
# The two retention policies

Finished proposals are dropped by their number, finished rows by their number and
their age. While retention finds nothing to drop, queue and journal list the same.

* `InStep`: every proposal has its row, every row its proposal;
* `Deed.working`: a deed keeps that, where nothing is due;
* `retention_agrees`: over whole runs in which every call succeeds.
-/

namespace SortingHat
open Posix Effect Text
open Journal (Row Database State)

/-- The row says what the status says, or is on its way. -/
def Matches (p : Proposal) (row : Row) : Prop :=
  row.interrupted = true ∨ ∃ reached, p.status.journal? = some reached ∧ row.state = reached.asStr

/-- Queue and journal list the same. -/
structure InStep (s : Service) (w : World) : Prop where
  distinct : (s.state.proposals.map Proposal.id).Nodup
  listed : ∀ row ∈ w.db.rows, ∃ p ∈ s.state.proposals, p.id = row.id
  kept : ∀ p ∈ s.state.proposals, ∃ row ∈ w.db.rows, row.id = p.id ∧ Matches p row

/-- In step, and no request under way. -/
structure Steady (s : Service) (w : World) : Prop extends InStep s w where
  settled : ∀ row ∈ w.db.rows, row.interrupted = false

/-- Retention that runs on behalf of `caller`, begun in `w`, finds nothing to drop. -/
structure NotDue (A : Tick → Prop) (caller : Option Call) (w : World) : Prop where
  recent : ∀ row ∈ w.db.rows, row.terminal = true → ∀ now, Clock A now →
    now - maxJournalAgeSeconds ≤ row.updatedAt
  together : ∀ now now', Clock A now → Clock A now' → now - maxJournalAgeSeconds ≤ now'
  few : ∃ ids : List Uuid, ids.length ≤ maxTerminalJournal ∧
    (∀ row ∈ w.db.rows, row.terminal = true → row.id ∈ ids) ∧ ∀ id, Acts caller id → id ∈ ids

/-- What a caller that applies retention has left of the rows it found in `w₀`. -/
structure Remainder (A : Tick → Prop) (caller : Option Call) (w₀ w : World) : Prop where
  others : ∀ row ∈ w.db.rows, row ∈ w₀.db.rows ∨ Acts caller row.id
  recent : ∀ row ∈ w.db.rows, row.terminal = true → ∀ now, Clock A now →
    now - maxJournalAgeSeconds ≤ row.updatedAt

section
variable {P : Platform} {A : Tick → Prop} {caller : Option Call} {s s' : Service} {w w₀ w' : World}

theorem Matches.of_state {p : Proposal} {row : Row} (reached : State)
    (hs : p.status.journal? = some reached) (h : row.state = reached.asStr) : Matches p row :=
  .inr ⟨reached, hs, h⟩

theorem Matches.of_interrupted {p : Proposal} {row : Row} (next : State) (hi : next.interrupted = true)
    (h : row.state = next.asStr) : Matches p row := by
  refine .inl ?_
  rw [Row.interrupted_of_state h]
  exact hi

/-- A proposal and its row changed together. -/
theorem InStep.modify {index : Nat} {p : Proposal} {row row' : Row} {f : Proposal → Proposal}
    (h : InStep s w) (hp : Paired s w index p row) (hid : ∀ p, (f p).id = p.id)
    (hrow : row'.id = row.id) (hm : Matches (f p) row') :
    InStep (s.revised index f) { w with db := w.db.replace row' } where
  distinct := (modify_ids hid).symm ▸ h.distinct
  listed other ho := by
    obtain ⟨old, hold, hsame⟩ : ∃ old ∈ w.db.rows, old.id = other.id := by
      rcases Database.mem_replace_cases ho with rfl | ⟨ho, -⟩
      · exact ⟨row, hp.row_mem, hrow.symm⟩
      · exact ⟨other, ho, rfl⟩
    obtain ⟨q, hq, hqid⟩ := h.listed old hold
    have hids : q.id ∈ (s.state.proposals.modify index f).map Proposal.id :=
      (modify_ids hid).symm ▸ List.mem_map_of_mem hq
    obtain ⟨q', hq', hqid'⟩ := List.mem_map.mp hids
    exact ⟨q', hq', hqid'.trans (hqid.trans hsame)⟩
  kept q hq := by
    rcases mem_modify_cases h.distinct hp.found hq with rfl | ⟨hq, hne⟩
    · exact ⟨row', Database.mem_replace_self hp.row_mem hrow, by rw [hrow, hp.same, hid], hm⟩
    · obtain ⟨other, ho, hoid, hmatch⟩ := h.kept q hq
      refine ⟨other, Database.mem_replace_of_ne ho fun he => hne ?_, hoid, hmatch⟩
      rw [← hoid, he, hrow, hp.same]

/-- A row changed under its proposals. -/
theorem InStep.replace {row : Row} (row' : Row) (h : InStep s w) (hrow : row ∈ w.db.rows)
    (hid : row'.id = row.id)
    (hm : ∀ p, Matches p row → Matches p row') : InStep s { w with db := w.db.replace row' } where
  distinct := h.distinct
  listed other ho := by
    rcases Database.mem_replace_cases ho with rfl | ⟨ho, -⟩
    · exact hid ▸ h.listed row hrow
    · exact h.listed other ho
  kept p hp := by
    obtain ⟨other, ho, hoid, hmatch⟩ := h.kept p hp
    by_cases he : other.id = row'.id
    · obtain rfl := Database.unique ho hrow (he.trans hid)
      exact ⟨row', Database.mem_replace_self hrow hid, he.symm.trans hoid, hm p hmatch⟩
    · exact ⟨other, Database.mem_replace_of_ne ho he, hoid, hmatch⟩

theorem settle_self {state : PersistentState} {id : Uuid} {f : Proposal → Proposal}
    (hid : ∀ p, (f p).id = p.id) (hs : ∀ p, (f p).status = p.status) (hd : InStep s w)
    (hstate : s.state = state) : InStep { s with state := state.settle id f } w := by
  subst hstate
  unfold PersistentState.settle
  split
  · next index hindex =>
    refine ⟨(modify_ids hid).symm ▸ hd.distinct, fun row hm => ?_, fun q hq => ?_⟩
    · obtain ⟨p, hp, hpid⟩ := hd.listed row hm
      have hids : p.id ∈ (s.state.proposals.modify index f).map Proposal.id :=
        (modify_ids hid).symm ▸ List.mem_map_of_mem hp
      obtain ⟨q, hq, hqid⟩ := List.mem_map.mp hids
      exact ⟨q, hq, hqid.trans hpid⟩
    · rcases mem_modify hq with ⟨old, ho, rfl⟩ | ⟨i, -, hi⟩
      · obtain ⟨row, hm, hrow, hmatch⟩ := hd.kept old (List.mem_of_getElem? ho)
        refine ⟨row, hm, by rw [hrow, hid], ?_⟩
        unfold Matches
        rw [hs]
        exact hmatch
      · exact hd.kept q (List.mem_of_getElem? hi)
  · exact hd

/-! ## Nothing to drop -/

theorem delete_none {db : Database} {doomed : Row → Bool}
    (h : ∀ row ∈ db.rows, doomed row = false) : (db.delete doomed).2 = db := by
  have hall : db.rows.filter (fun row => !doomed row) = db.rows :=
    List.filter_eq_self.mpr fun row hm => by rw [h row hm]; rfl
  cases db
  simp only [Database.delete, Database.mk.injEq, and_true]
  exact hall

theorem aged_self {age : Nat} {now : Int}
    (h : ∀ row ∈ w.db.rows, row.terminal = true → now - age ≤ row.updatedAt) :
    w.db.aged age now = w.db := by
  apply delete_none
  intro row hm
  by_cases ht : row.terminal = true
  · have := h row hm ht
    simp only [ht, Bool.true_and, decide_eq_false_iff_not]
    omega
  · simp [ht]

theorem trimmed_self {db : Database} {retain : Nat} (h : db.rows.countP Row.terminal ≤ retain) :
    db.trimmed retain = db := by
  have hnone : db.surplus retain = [] := by
    apply List.drop_eq_nil_of_le
    rw [List.length_insertionSort, ← List.filter_reverse, ← List.countP_eq_length_filter,
      List.countP_reverse]
    exact h
  apply delete_none
  intro row _
  rw [hnone]
  rfl

theorem pruned_self {proposals : List Proposal}
    (h : proposals.countP (fun p => p.status.terminal) ≤ 10000) :
    pruneTerminalProposals proposals = proposals := by
  unfold pruneTerminalProposals
  rw [Nat.sub_eq_zero_of_le h]
  cases proposals <;> rfl

/-- A list without repetitions is no longer than one that holds all of it. -/
theorem countP_le {α : Type} {l : List α} {key : α → Uuid} {p : α → Bool} {ids : List Uuid}
    (hd : (l.map key).Nodup) (h : ∀ a ∈ l, p a = true → key a ∈ ids) : l.countP p ≤ ids.length := by
  have hnodup : ((l.filter p).map key).Nodup := (List.filter_sublist.map key).nodup hd
  have hsub : (l.filter p).map key ⊆ ids := by
    intro id hid
    obtain ⟨a, ha, rfl⟩ := List.mem_map.mp hid
    obtain ⟨ha, hp⟩ := List.mem_filter.mp ha
    exact h a ha hp
  rw [List.countP_eq_length_filter, ← List.length_map (f := key)]
  exact (List.subperm_of_subset hnodup hsub).length_le

theorem Status.terminal_of_journal {status : Status} {reached : State} (ht : status.terminal = true)
    (h : status.journal? = some reached) : reached.terminal = true := by
  cases status <;> cases ht <;> cases h <;> rfl

theorem Remainder.start (hdue : NotDue A caller w₀) : Remainder A caller w₀ w₀ :=
  ⟨fun _ hm => .inl hm, hdue.recent⟩

/-- The caller's own row, touched now. -/
theorem Remainder.replace {row' : Row} {now : Int} (h : Remainder A caller w₀ w) (hdue : NotDue A caller w₀)
    (hacts : Acts caller row'.id) (hnow : Clock A now) (hrow : row'.updatedAt = now) :
    Remainder A caller w₀ { w with db := w.db.replace row' } where
  others other ho := by
    rcases Database.mem_replace_cases ho with rfl | ⟨ho, -⟩
    · exact .inr hacts
    · exact h.others other ho
  recent other ho ht now' hnow' := by
    rcases Database.mem_replace_cases ho with rfl | ⟨ho, -⟩
    · exact hrow.symm ▸ hdue.together now' now hnow' hnow
    · exact h.recent other ho ht now' hnow'

/-- At most 10,000 rows have ended. -/
theorem Remainder.few_rows (h : Remainder A caller w₀ w) (hdue : NotDue A caller w₀) :
    w.db.rows.countP Row.terminal ≤ maxTerminalJournal := by
  obtain ⟨ids, hlen, hended, hcaller⟩ := hdue.few
  refine (countP_le w.db.keyed fun row hm ht => ?_).trans hlen
  rcases h.others row hm with hold | hacts
  · exact hended row hold ht
  · exact hcaller row.id hacts

/-- At most 10,000 proposals have ended. -/
theorem Remainder.few_proposals (h : Remainder A caller w₀ w) (hdue : NotDue A caller w₀)
    (hw₀ : ∀ row ∈ w₀.db.rows, row.interrupted = false) (hin : InStep s w) :
    s.state.proposals.countP (fun p => p.status.terminal) ≤ 10000 := by
  obtain ⟨ids, hlen, hended, hcaller⟩ := hdue.few
  refine (countP_le hin.distinct fun p hp ht => ?_).trans hlen
  obtain ⟨row, hm, hid, hmatch⟩ := hin.kept p hp
  rw [← hid]
  rcases h.others row hm with hold | hacts
  · apply hended row hold
    rcases hmatch with hi | ⟨reached, hs, hrow⟩
    · rw [hw₀ row hold] at hi
      cases hi
    · rw [Journal.Row.terminal_of_state hrow]
      exact Status.terminal_of_journal ht hs
  · exact hcaller row.id hacts

/-- **A deed keeps queue and journal in step** where nothing is due. -/
theorem Deed.working (h : Deed P A caller false s w s' w')
    (hw₀ : ∀ row ∈ w₀.db.rows, row.interrupted = false)
    (hdue : Retains caller = true → NotDue A caller w₀) (hin : InStep s w)
    (ha : Retains caller = true → Remainder A caller w₀ w) :
    InStep s' w' ∧ (Retains caller = true → Remainder A caller w₀ w') := by
  -- a proposal and its row both keep their state
  have hsame : ∀ {index : Nat} {p : Proposal} {row row' : Row} {f : Proposal → Proposal} {now : Int},
      Paired s w index p row → (∀ p, (f p).id = p.id) → (∀ p, (f p).status = p.status) →
      row'.id = row.id → row'.state = row.state → row'.updatedAt = now → Acts caller row.id →
      Clock A now → InStep (s.revised index f) { w with db := w.db.replace row' } ∧
        (Retains caller = true → Remainder A caller w₀ { w with db := w.db.replace row' }) := by
    intro index p row row' f now hp hid hstatus hrow hstate hupdated hacts hnow
    refine ⟨hin.modify hp hid hrow ?_, fun hr => ?_⟩
    · obtain ⟨other, ho, hoid, hmatch⟩ := hin.kept p (List.mem_of_getElem? hp.found)
      obtain rfl := Database.unique ho hp.row_mem (hoid.trans hp.same.symm)
      unfold Matches Row.interrupted
      rw [hstatus, hstate]
      exact hmatch
    · exact (ha hr).replace (hdue hr) (hrow.symm ▸ hacts) hnow hupdated
  cases h with
  | files | sampled | drew | paused | advised | rooted | unrooted | ruled | installed =>
    exact ⟨⟨hin.distinct, hin.listed, hin.kept⟩, fun hr => ⟨(ha hr).others, (ha hr).recent⟩⟩
  | @proposed p row db hb hi hnow hcaller =>
    obtain ⟨hfresh, hrows, -⟩ := Database.insert_eq_ok hi
    refine ⟨⟨?_, ?_, ?_⟩, fun hr => ?_⟩
    · show ((s.state.proposals ++ [p]).map Proposal.id).Nodup
      rw [List.map_append, List.map_singleton]
      refine List.nodup_append.mpr ⟨hin.distinct, List.nodup_singleton _, ?_⟩
      rintro id hid _ hp rfl
      obtain ⟨q, hq, hqid⟩ := List.mem_map.mp hid
      obtain ⟨old, ho, hold, -⟩ := hin.kept q hq
      apply hfresh
      rw [hb.row_id, ← List.mem_singleton.mp hp, ← hqid, ← hold]
      exact List.mem_map_of_mem ho
    · intro other ho
      rw [hrows] at ho
      rcases List.mem_append.mp ho with ho | ho
      · obtain ⟨q, hq, hqid⟩ := hin.listed other ho
        exact ⟨q, List.mem_append_left _ hq, hqid⟩
      · refine ⟨p, List.mem_append_right _ (List.mem_singleton_self p), ?_⟩
        rw [List.mem_singleton.mp ho, hb.row_id]
    · intro q hq
      rcases List.mem_append.mp hq with hq | hq
      · obtain ⟨old, ho, hoid, hmatch⟩ := hin.kept q hq
        exact ⟨old, hrows ▸ List.mem_append_left _ ho, hoid, hmatch⟩
      · obtain rfl := List.mem_singleton.mp hq
        refine ⟨row, ?_, hb.row_id, ?_⟩
        · show row ∈ db.rows
          rw [hrows]
          exact List.mem_append_right _ (List.mem_singleton_self row)
        · exact Matches.of_state .proposed (by rw [hb.status]; rfl) hb.row_state
    · rw [hcaller] at hr
      cases hr
  | redirected hp _ _ _ _ _ _ _ _ hacts _ _ hnow =>
    exact hsame hp (fun _ => rfl) (fun _ => rfl) rfl rfl rfl hacts hnow
  | renamed hp _ _ _ _ _ _ _ hcaller _ hnow =>
    exact hsame hp (fun _ => rfl) (fun _ => rfl) rfl rfl rfl ⟨_, _, hcaller, rfl⟩ hnow
  | @approved index revision p row hp _ _ _ hacts now hnow =>
    refine ⟨hin.modify hp (fun _ => rfl) rfl ?_, fun hr => ?_⟩
    · exact Matches.of_interrupted .approved rfl rfl
    · exact (ha hr).replace (hdue hr) hacts hnow rfl
  | @moved row source next hm _ _ hi _ hacts now hnow =>
    refine ⟨hin.replace (row.moved next now) hm rfl fun _ _ => ?_, fun hr => ?_⟩
    · exact Matches.of_interrupted next hi rfl
    · exact (ha hr).replace (hdue hr) hacts hnow rfl
  | @finished index revision p row source next status hp _ _ hend _ hacts now hnow =>
    refine ⟨hin.modify hp (fun _ => rfl) rfl ?_, fun hr => ?_⟩
    · refine Matches.of_state next ?_ rfl
      rcases hend with ⟨rfl, rfl⟩ | ⟨rfl, rfl⟩ | ⟨rfl, rfl⟩ <;> rfl
    · exact (ha hr).replace (hdue hr) hacts hnow rfl
  | @settled row source next status revision hm hs hi _ _ _ hcaller =>
    -- nothing was left behind, and an open leaves nothing behind
    subst hcaller
    rcases (ha rfl).others row hm with hold | ⟨_, _, hnone, -⟩
    · have := hw₀ row hold
      rw [Row.interrupted_of_state hs, hi] at this
      cases this
    · cases hnone
  | warned id warning hcaller =>
    exact ⟨settle_self (fun _ => rfl) (fun _ => rfl) hin rfl, ha⟩
  | @hashed row hm hacts digest now hnow =>
    refine ⟨hin.replace (row.hashed digest now) hm rfl fun _ hmatch => ?_, fun hr => ?_⟩
    · exact hmatch
    · exact (ha hr).replace (hdue hr) hacts hnow rfl
  | pruned hr =>
    rw [pruned_self ((ha hr).few_proposals (hdue hr) hw₀ hin)]
    exact ⟨hin, ha⟩
  | aged hr hnow =>
    rw [aged_self fun row hm ht => (ha hr).recent row hm ht _ hnow]
    exact ⟨hin, ha⟩
  | trimmed hr =>
    rw [trimmed_self ((ha hr).few_rows (hdue hr))]
    exact ⟨hin, ha⟩
  | lost hl => cases hl

theorem Deeds.working (h : Deeds P A caller false s w₀ s' w') (hs : Steady s w₀)
    (hdue : Retains caller = true → NotDue A caller w₀) :
    InStep s' w' ∧ (Retains caller = true → Remainder A caller w₀ w') := by
  refine Deeds.keeps (I := fun s w => InStep s w ∧ (Retains caller = true → Remainder A caller w₀ w))
    (fun s w s' w' hi hd => hd.working hs.settled hdue hi.1 hi.2) h ⟨hs.toInStep, ?_⟩
  exact fun hr => Remainder.start (hdue hr)

end

/-! ## Runs -/

/-- The commands on which retention finds nothing to drop. An open whose calls fail
can take a saved queue for none. -/
def NothingDue (m : Machine) : Command → Prop
  | .serve call ticks => Retains (some call) = true → NotDue (· ∈ ticks) (some call) m.world
  | .start ticks => NotDue (· ∈ ticks) none m.world ∧ ∀ t ∈ ticks, t.fault = none
  | _ => True

/-- Nothing was cut, and nothing was refused. -/
def Event.fine : Event → Bool
  | .answered _ ok => ok
  | .died call => call.isNone
  | .opened | .files => true
  | .stopped => false

/-- What the two stores must agree on. -/
structure Agree (state : PersistentState) (db : Database) : Prop where
  undoable : ∀ p ∈ state.proposals, p.status = .completed →
    ∃ row ∈ db.rows, row.id = p.id ∧ row.state = State.completed.asStr
  kept : ∀ row ∈ db.rows, row.terminal = true → ∃ p ∈ state.proposals, p.id = row.id

/-- The queue in memory, or in `state.json`. -/
def Machine.Shows (m : Machine) (state : PersistentState) : Prop :=
  (∃ s, m.service = some s ∧ s.state = state) ∨
    ∃ file, m.world.stateJson = some file ∧ file.content = some state

/-- In step whether the service runs or not. -/
def Machine.InStep (m : Machine) : Prop :=
  match m.service with
  | some s => Steady s m.world ∧ Installed s m.world
  | none => ∀ loaded, Loads (fun t => t.fault = none) m.world loaded →
      Steady (.fresh loaded) m.world

section
variable {P : Platform} {m m' : Machine} {event : Event} {events : List Event}

theorem Steady.agree {s : Service} {w : World} (h : Steady s w) : Agree s.state w.db where
  undoable p hp hs := by
    obtain ⟨row, hm, hid, hi | ⟨reached, hr, hrow⟩⟩ := h.kept p hp
    · rw [h.settled row hm] at hi
      cases hi
    · rw [hs] at hr
      cases hr
      exact ⟨row, hm, hid, hrow⟩
  kept row hm _ := h.listed row hm

theorem Loads.of_saved {A : Tick → Prop} {w : World} {file : StateFile} {state : PersistentState}
    (hf : w.stateJson = some file) (hs : file.content = some state) : Loads A w state :=
  .inr ⟨file, hf, hs⟩

/-- With no failing call, what is loaded is what was saved. -/
theorem Installed.loads {s : Service} {w : World} {loaded : PersistentState} (h : Installed s w)
    (hl : Loads (fun t => t.fault = none) w loaded) : loaded = s.state := by
  rcases hl with ⟨-, hn | ⟨t, ht, hfault⟩⟩ | ⟨file, hf, hs⟩
  · rw [h.1] at hn
    cases hn
  · exact absurd ht hfault
  · obtain rfl := Option.some.inj (h.1.symm.trans hf)
    exact (Option.some.inj hs).symm

theorem Machine.InStep.agree (h : m.InStep) {state : PersistentState} (hs : m.Shows state) :
    Agree state m.world.db := by
  obtain ⟨w, service⟩ := m
  cases service with
  | some s =>
    obtain ⟨hsteady, hi⟩ := h
    rcases hs with ⟨s', hs', rfl⟩ | ⟨file, hf, hs⟩
    · obtain rfl := Option.some.inj hs'
      exact hsteady.agree
    · obtain rfl := hi.loads (.of_saved hf hs)
      exact hsteady.agree
  | none =>
    rcases hs with ⟨s', hs', -⟩ | ⟨file, hf, hs⟩
    · cases hs'
    · exact (h state (.of_saved hf hs)).agree

/-- One command keeps queue and journal in step. -/
theorem Machine.InStep.step {command : Command} (h : m.InStep)
    (hstep : m.step? P command = some (event, m')) (hfine : event.fine = true)
    (hdue : NothingDue m command) : m'.InStep := by
  have hconduct := Command.conduct (A := fun t => t ∈ command.ticks) hstep fun _ ht => ht
  have hyields := Command.yields hstep
  cases command with
  | serve call ticks =>
    obtain ⟨ok, rfl⟩ := hyields
    obtain rfl : ok = true := hfine
    cases hconduct with
    | @served w w' s s' _ _ hd ha =>
      obtain ⟨hsteady, hi⟩ := h
      obtain ⟨hin, -⟩ := hd.working hsteady hdue
      refine ⟨⟨hin, fun row hm => ?_⟩, ?_⟩
      · apply Bool.eq_false_iff.mpr
        intro hrow
        rw [hsteady.settled row ((ha rfl).settled row hm hrow)] at hrow
        cases hrow
      · rcases (ha rfl).kept with hi' | ⟨hs, -, hj⟩
        · exact hi'
        · unfold Installed
          rw [hs, hj]
          exact hi
  | start ticks =>
    obtain rfl := hyields
    obtain ⟨hdue, hfault⟩ := hdue
    cases hconduct with
    | @opened w w' loaded s hl hd hi =>
      have hsteady := h loaded (hl.mono hfault)
      obtain ⟨hin, haside⟩ := hd.working hsteady fun _ => hdue
      refine ⟨⟨hin, fun row hm => ?_⟩, hi⟩
      rcases (haside rfl).others row hm with hold | ⟨_, _, hnone, -⟩
      · exact hsteady.settled row hold
      · cases hnone
  | files change =>
    obtain rfl := hyields
    cases hconduct with
    | @files w service fs =>
      have hfiles : ∀ {s : Service}, Steady s w → Steady s { w with fs } := fun hs =>
        ⟨⟨hs.distinct, hs.listed, hs.kept⟩, hs.settled⟩
      cases service with
      | some s => exact ⟨hfiles h.1, h.2⟩
      | none => exact fun loaded hl => hfiles (h loaded hl)
  | quit =>
    obtain rfl := hyields
    cases hconduct with
    | ended =>
      obtain ⟨hsteady, hi⟩ := h
      intro loaded hl
      obtain rfl := hi.loads hl
      exact ⟨⟨hsteady.distinct, hsteady.listed, hsteady.kept⟩, hsteady.settled⟩
  | cut call ticks =>
    obtain rfl := hyields
    cases hfine
  | stop ticks =>
    obtain rfl := hyields
    cases hfine

theorem Machine.InStep.replay {commands : List Command} (h : m.InStep)
    (hreplay : m.replay? P commands = some (events, m')) (hfine : ∀ event ∈ events, event.fine = true)
    (hdue : m.Along P NothingDue commands) : m'.InStep := by
  induction commands generalizing m events with
  | nil =>
    cases hreplay
    exact h
  | cons command commands ih =>
    obtain ⟨event, m₁, events₁, hstep, hrest, rfl⟩ := replay_cons hreplay
    obtain ⟨hnow, hlater⟩ := hdue
    apply ih (h.step hstep (hfine event List.mem_cons_self) hnow) hrest
    · exact fun e he => hfine e (List.mem_cons_of_mem _ he)
    · exact hlater event m₁ hstep

theorem Machine.initial_inStep (fs : FileSystem) : (Machine.initial fs).InStep := by
  intro loaded hl
  rcases hl with ⟨rfl, -⟩ | ⟨file, hf, -⟩
  · exact ⟨⟨List.nodup_nil, (fun _ hm => nomatch hm), fun _ hp => nomatch hp⟩,
      fun _ hm => nomatch hm⟩
  · cases hf

/-- **The two retention policies agree** in every run in which nothing is cut or
refused and retention, whenever it runs, finds nothing to drop. -/
theorem retention_agrees {fs : FileSystem} {commands : List Command}
    (h : (Machine.initial fs).replay? P commands = some (events, m))
    (hfine : ∀ event ∈ events, event.fine = true)
    (hdue : (Machine.initial fs).Along P NothingDue commands) :
    ∀ state, m.Shows state → Agree state m.world.db := by
  intro state hs
  exact ((Machine.initial_inStep fs).replay h hfine hdue).agree hs

end

/-- No row is old, few are there, and the clock stands still. -/
def Machine.calm (m : Machine) (ticks : List Tick) : Bool :=
  decide (m.world.db.rows.length < maxTerminalJournal) &&
    ticks.all fun t => decide (t.seconds = (ticks.map Tick.seconds).headD 0) &&
      m.world.db.rows.all fun row => decide (t.seconds - maxJournalAgeSeconds ≤ row.updatedAt)

theorem NotDue.of_calm {m : Machine} {ticks : List Tick} {caller : Option Call}
    (h : m.calm ticks = true) : NotDue (· ∈ ticks) caller m.world := by
  unfold Machine.calm at h
  simp only [Bool.and_eq_true, List.all_eq_true, decide_eq_true_eq] at h
  obtain ⟨hlen, hticks⟩ := h
  refine ⟨?_, ?_, ?_⟩
  · rintro row hm - now ⟨t, ht, rfl⟩
    exact (hticks t ht).2 row hm
  · rintro now now' ⟨t, ht, rfl⟩ ⟨t', ht', rfl⟩
    rw [(hticks t ht).1, (hticks t' ht').1]
    omega
  · -- the rows there are, and the one the caller presents
    have hrow : ∀ row ∈ m.world.db.rows, row.id ∈ m.world.db.rows.map Row.id := fun row hm =>
      List.mem_map_of_mem hm
    cases hc : caller.bind Call.presents with
    | none =>
      refine ⟨m.world.db.rows.map Row.id, ?_, fun row hm _ => hrow row hm, ?_⟩
      · rw [List.length_map]
        exact hlen.le
      · rintro id ⟨call, revision, rfl, hp⟩
        rw [Option.bind_some, hp] at hc
        cases hc
    | some presented =>
      refine ⟨presented.1 :: m.world.db.rows.map Row.id, ?_, fun row hm _ =>
        List.mem_cons_of_mem _ (hrow row hm), ?_⟩
      · rw [List.length_cons, List.length_map]
        exact hlen
      · rintro id ⟨call, revision, rfl, hp⟩
        rw [Option.bind_some, hp] at hc
        rw [← Option.some.inj hc]
        exact List.mem_cons_self

/-- `NothingDue`, tested by `calm`. -/
def NothingDue.test (m : Machine) : Command → Bool
  | .serve call ticks => !Retains (some call) || m.calm ticks
  | .start ticks => m.calm ticks && ticks.all fun t => t.fault.isNone
  | _ => true

theorem NothingDue.of_test (m : Machine) (command : Command)
    (h : NothingDue.test m command = true) : NothingDue m command := by
  cases command with
  | serve call ticks =>
    intro hr
    apply NotDue.of_calm
    have : (!Retains (some call) || m.calm ticks) = true := h
    rw [hr] at this
    exact this
  | start ticks =>
    obtain ⟨hcalm, hfault⟩ := Bool.and_eq_true_iff.mp h
    exact ⟨.of_calm hcalm, fun t ht => Option.isNone_iff_eq_none.mp (List.all_eq_true.mp hfault t ht)⟩
  | _ => trivial

/-- A file that is proposed and ignored. -/
theorem retention_agrees_ignored :
    ∃ m : Machine, (∃ s, m.service = some s ∧ ∃ p ∈ s.state.proposals, p.status = .ignored) ∧
      ∀ state, m.Shows state → Agree state m.world.db := by
  let commands : List Command := [.start (quietAt 0),
    .serve (.addRoot (bytes "/w") true false) (quietAt 0), .serve .scanOnce (quietAt 0),
    .serve .scanOnce (quietAt 2), .serve (.ignore ⟨1⟩ 1) (quietAt 3)]
  obtain ⟨events, m, hr, htest⟩ := exists_replay (P := .sample) (m := Machine.initial sampleFiles)
    commands (fun events m => events.all Event.fine && m.service.any fun s =>
      s.state.proposals.any fun p => p.status = .ignored) (by decide +kernel)
  obtain ⟨hfine, hs⟩ := Bool.and_eq_true_iff.mp htest
  obtain ⟨s, hs, hp⟩ := (Option.any_eq_true _ _).mp hs
  obtain ⟨p, hp, hstatus⟩ := List.any_eq_true.mp hp
  have hdue : (Machine.initial sampleFiles).Along .sample NothingDue commands :=
    Machine.along_of_test NothingDue.of_test (by decide +kernel)
  exact ⟨m, ⟨s, hs, p, hp, of_decide_eq_true hstatus⟩,
    retention_agrees hr (List.all_eq_true.mp hfine) hdue⟩

/-- A month after an approval the next open drops the row and keeps the proposal. -/
theorem retention_disagrees :
    ∃ (events : List Event) (m : Machine) (state : PersistentState),
      (∃ commands, (Machine.initial sampleFiles).replay? .sample commands = some (events, m)) ∧
      (∀ event ∈ events, event.fine = true) ∧ m.Shows state ∧ ¬ Agree state m.world.db := by
  let commands := Command.enrol (bytes "/d") ++
    [.serve (.chooseDestination ⟨2⟩ 1 ⟨1⟩ ".") (quietAt 3), .serve (.approve ⟨2⟩ 2) (quietAt 4),
      .quit, .start (quietAt 2700000)]
  obtain ⟨events, m, hr, htest⟩ := exists_replay (P := .sample) (m := Machine.initial sampleFiles)
    commands (fun events m => events.all Event.fine && m.world.db.rows.isEmpty &&
      m.service.any fun s => s.state.proposals.any fun p => p.status = .completed)
    (by decide +kernel)
  obtain ⟨htest, hs⟩ := Bool.and_eq_true_iff.mp htest
  obtain ⟨hfine, hrows⟩ := Bool.and_eq_true_iff.mp htest
  obtain ⟨s, hs, hp⟩ := (Option.any_eq_true _ _).mp hs
  obtain ⟨p, hp, hstatus⟩ := List.any_eq_true.mp hp
  refine ⟨events, m, s.state, ⟨commands, hr⟩, List.all_eq_true.mp hfine, .inl ⟨s, hs, rfl⟩,
    fun hagree => ?_⟩
  obtain ⟨row, hm, -⟩ := hagree.undoable p hp (of_decide_eq_true hstatus)
  rw [List.isEmpty_iff.mp hrows] at hm
  cases hm

end SortingHat
