import SortingHat.Service.Conduct
import SortingHat.Service.Restart

/-!
# Ways out of the queue

What can become of a journal entry that is not terminal.

* `ignore_ends`: a proposed entry with its proposal in step can be ignored;
* `handed_over`: `needs_attention` is never left;
* `ways_out`: every kind of entry, in any state a run reaches.
-/

namespace SortingHat
open Posix Effect Text
open Journal (Row Database State)

/-! ## Entries that stay -/

/-- An entry that is left to the user. -/
def HandedOver (id : Uuid) (w : World) : Prop :=
  ∃ row ∈ w.db.rows, row.id = id ∧ row.state = State.needsAttention.asStr

theorem Journal.Change.handedOver {db db' : Database} (h : Journal.Change db db') {row : Row}
    (hm : row ∈ db.rows) (hs : row.state = State.needsAttention.asStr) :
    ∃ row' ∈ db'.rows, row'.id = row.id ∧ row'.state = State.needsAttention.asStr := by
  cases h with
  | created hi =>
    refine ⟨row, ?_, rfl, hs⟩
    rw [(Database.insert_eq_ok hi).2.1]
    exact List.mem_append_left _ hm
  | @replaced old row' ho hf =>
    by_cases hid : row.id = row'.id
    · -- the row itself: only `needs_attention` follows `needs_attention`
      obtain rfl := Database.unique hm ho (hid.trans hf.id)
      refine ⟨row', Database.mem_replace_self hm hid.symm, hid.symm, ?_⟩
      cases hf with
      | hashed => exact hs
      | @moved source target now hsource ha =>
        obtain rfl := State.asStr_injective (hsource.symm.trans hs)
        cases target <;> first | rfl | cases ha
      | redirected token now hp => cases State.asStr_injective (hp.symm.trans hs)
    · exact ⟨row, Database.mem_replace_of_ne hm hid, rfl, hs⟩
  | deleted doomed ht =>
    refine ⟨row, List.mem_filter.mpr ⟨hm, ?_⟩, rfl, hs⟩
    rw [Bool.not_eq_true']
    apply Bool.eq_false_iff.mpr
    intro hd
    have := ht row hm hd
    rw [Journal.Row.terminal_of_state hs] at this
    cases this

section
variable {P : Platform} {m m' : Machine} {events : List Event}

/-- **`needs_attention` is never left.** -/
theorem handed_over (h : Run P m events m') {id : Uuid} (hid : HandedOver id m.world) :
    HandedOver id m'.world := by
  apply h.keeps_world _ hid
  rintro caller lossy s w s' w' ⟨row, hm, rfl, hs⟩ hdeed
  rcases hdeed.change with hdb | hc
  · exact ⟨row, hdb ▸ hm, rfl, hs⟩
  · exact hc.handedOver hm hs

/-! ## Ignoring -/

/-- No row has a negative size. -/
def Sized (w : World) : Prop := ∀ row ∈ w.db.rows, 0 ≤ row.size

theorem Deed.sized {A : Tick → Prop} {caller : Option Call} {lossy : Bool} {s s' : Service}
    {w w' : World} (h : Deed P A caller lossy s w s' w') (hs : Sized w) : Sized w' := by
  have hreplaced : ∀ {row row' : Row}, row ∈ w.db.rows → Journal.Follows row row' →
      Sized { w with db := w.db.replace row' } := by
    intro row row' hm hf other ho
    rcases Database.mem_replace_cases ho with rfl | ⟨ho, -⟩
    · have := hs row hm
      cases hf <;> exact this
    · exact hs other ho
  cases h with
  | files | sampled | drew | paused | advised | rooted | unrooted | ruled | warned | pruned
  | installed => exact hs
  | proposed hb hi =>
    intro row hm
    rw [(Database.insert_eq_ok hi).2.1] at hm
    rcases List.mem_append.mp hm with hm | hm
    · exact hs row hm
    · rw [List.mem_singleton.mp hm, hb.row_size]
      exact Int.natCast_nonneg _
  | redirected hp _ _ hstate => exact hreplaced hp.row_mem (.redirected _ _ hstate)
  | renamed hp _ _ hstate => exact hreplaced hp.row_mem (.redirected _ _ hstate)
  | approved hp _ _ hstate => exact hreplaced hp.row_mem (.moved _ hstate rfl)
  | moved hm hs ha => exact hreplaced hm (.moved _ hs ha)
  | finished hp hs ha => exact hreplaced hp.row_mem (.moved _ hs ha)
  | settled hm hs _ ha => exact hreplaced hm (.moved _ hs ha)
  | hashed hm => exact hreplaced hm (.hashed _ _)
  | aged => exact fun row hm => hs row (List.mem_of_mem_filter hm)
  | trimmed => exact fun row hm => hs row (List.mem_of_mem_filter hm)
  | lost _ hm hf => exact hreplaced hm hf

theorem Run.sized {fs : FileSystem} (h : Run P (Machine.initial fs) events m) : Sized m.world := by
  apply h.keeps_world
  · exact fun _ _ _ _ _ _ hs hd => hd.sized hs
  · intro row hm
    cases hm

end

section
variable {A : Tick → Prop} {P : Platform} {s : Service} {w : World}

/-- After the transition, the end of a request only prunes the journal. -/
theorem finish_prunes (index revision : Nat) (status : Status) :
    wpS A (finish index revision status) (fun _ _ w' => Journal.Pruned w.db w'.db)
      (fun _ _ w' => Journal.Pruned w.db w'.db) (fun w' => Journal.Pruned w.db w'.db) s w := by
  have hself := Journal.Pruned.refl w.db
  unfold finish modifyProposal proposalAt pruneProposals
  rw [wpS_bind, wpS_modifyState, wpS_bind, wpS_bind, wpS_getState, wpS_orFail]
  refine ⟨fun _ => hself, fun result _ => ?_⟩
  rw [wpS_bind, wpS_modifyState, wpS_bind]
  refine wpS_mono retention_does ?_ (fun _ _ _ h => h.db) fun _ h => h.db
  rintro _ s' w₁ ⟨rfl, h₁⟩
  refine (wpS_bind _ _).mpr (wpS_mono save_wp ?_ ?_ ?_)
  · rintro _ s'' w₂ ⟨rfl, h₂⟩
    exact (wpS_pure _).mpr (h₂.db ▸ h₁.db)
  · rintro _ s'' w₂ ⟨rfl, h₂ | h₂⟩ <;> exact h₂.db ▸ h₁.db
  · rintro w₂ (h₂ | h₂) <;> exact h₂.db ▸ h₁.db

theorem proposalIndex_of_mem {state : PersistentState} {p : Proposal}
    (hd : (state.proposals.map Proposal.id).Nodup) (hp : p ∈ state.proposals) :
    ∃ index, state.proposalIndex p.id p.revision = .ok index := by
  cases hf : state.proposals.findIdx? fun q => q.id = p.id with
  | none => exact absurd (List.findIdx?_eq_none_iff.mp hf p hp) (by simp)
  | some index =>
    obtain ⟨hlt, hhit, -⟩ := List.findIdx?_eq_some_iff_getElem.mp hf
    have hid : state.proposals[index].id = p.id := by simpa using hhit
    have hsame := List.inj_on_of_nodup_map hd (List.getElem_mem hlt) hp hid
    refine ⟨index, ?_⟩
    unfold PersistentState.proposalIndex
    rw [hf]
    simp only [List.getElem?_eq_getElem hlt, hsame, ne_eq, not_true_eq_false, if_false]

/-- **An ignore that meets no failing call ends the entry.** -/
theorem ignore_ends {row : Row} {p : Proposal} (hA : ∀ t, A t → t.fault = none)
    (hm : row ∈ w.db.rows) (hs : row.state = State.proposed.asStr) (hsize : 0 ≤ row.size)
    (hd : (s.state.proposals.map Proposal.id).Nodup) (hp : p ∈ s.state.proposals)
    (hid : p.id = row.id) (hrev : (p.revision : Int) = row.revision)
    (hfits : p.revision + 1 < 2 ^ 63) :
    wpS A (ignore p.id p.revision)
      (fun _ _ w' => ∃ now, Journal.Pruned (w.db.replace (row.moved .ignored now)) w'.db)
      (fun _ _ w' => ∃ now, Journal.Pruned (w.db.replace (row.moved .ignored now)) w'.db)
      (fun _ => True) s w := by
  obtain ⟨index, hindex⟩ := proposalIndex_of_mem hd hp
  unfold ignore
  rw [wpS_bind, wpS_getState, wpS_bind, hindex]
  refine (wpS_pure _).mpr ((wpS_bind _ _).mpr ((wpS_embed _ _).mpr ((wpE_inPart _ _).mpr ?_)))
  rw [hid]
  refine wpE_mono (Journal.transition_succeeds (K := fun _ => True) hA hm hrev.symm hs rfl hsize
    hfits fun _ => trivial) ?_ (fun _ _ h => h.elim) fun _ _ => trivial
  rintro entry db ⟨-, now, rfl⟩
  refine wpS_mono (finish_prunes index entry.revision .ignored) ?_ ?_ fun _ _ => trivial
  · exact fun _ _ w' h => ⟨now, h⟩
  · exact fun _ _ w' h => ⟨now, h⟩

end

/-- The entry has ended, or is gone. -/
def Ended (id : Uuid) (w : World) : Prop := ∀ row ∈ w.db.rows, row.id = id → row.terminal = true

section
variable {P : Platform} {m : Machine} {events : List Event}

/-- **What becomes of an entry that is not terminal**, in any state a run reaches: a
proposed one that its proposal is in step with can be ignored, one that a crash
left behind is settled by the next open, and one that is left to the user stays. -/
theorem ways_out {fs : FileSystem} (h : Run P (Machine.initial fs) events m) :
    (∀ s, m.service = some s → ∀ row ∈ m.world.db.rows, row.state = State.proposed.asStr →
      ∀ p ∈ s.state.proposals, p.id = row.id → (p.revision : Int) = row.revision →
      p.revision + 1 < 2 ^ 63 →
      ∃ ok m', Step P m (.answered (.ignore p.id p.revision) ok) m' ∧ Ended row.id m'.world ∧
        m'.world.db.activeCount + 1 = m.world.db.activeCount) ∧
    (m.world.db.activeCount ≤ 1000 → ∀ m', Step P m .opened m' →
      ∀ row ∈ m.world.db.rows, row.interrupted = true → ∃ row' ∈ m'.world.db.rows,
        row'.id = row.id ∧
          (row'.state = State.completed.asStr ∨ row'.state = State.needsAttention.asStr)) ∧
    ∀ id, HandedOver id m.world → ∀ events' m', Run P m events' m' → HandedOver id m'.world := by
  refine ⟨?_, ?_, ?_⟩
  · obtain ⟨w, service⟩ := m
    rintro s rfl row hm hs p hp hid hrev hfits
    obtain ⟨room, -, horderly⟩ := h.orderly
    have hd : (s.state.proposals.map Proposal.id).Nodup :=
      (show SortingHat.Orderly P [] room s w from horderly).trails.distinct
    -- an environment in which no call fails
    have hwp := @ignore_ends (fun t => t = Tick.quiet 0) s w row p (fun t ht => ht ▸ rfl) hm hs
      (h.sized row hm) hd hp hid hrev hfits
    obtain ⟨n, ⟨r, s'⟩, w', hrun⟩ := Prog.exists_finish (Tick.quiet 0)
      ((Call.perform P (.ignore p.id p.revision)).start s) w
    have hcall : wpS (fun t => t = Tick.quiet 0) (Call.perform P (.ignore p.id p.revision))
        (fun _ _ w' => ∃ now, Journal.Pruned (w.db.replace (row.moved .ignored now)) w'.db)
        (fun _ _ w' => ∃ now, Journal.Pruned (w.db.replace (row.moved .ignored now)) w'.db)
        (fun _ => True) s w :=
      (wpS_bind _ _).mpr (wpS_mono hwp (fun _ _ _ h => h) (fun _ _ _ h => h) fun _ h => h)
    have hafter := Prog.wp_after hcall (List.replicate n (Tick.quiet 0))
      fun t ht => List.eq_of_mem_replicate ht
    rw [hrun] at hafter
    obtain ⟨now, hpruned⟩ : ∃ now,
        Journal.Pruned (w.db.replace (row.moved .ignored now)) w'.db := by
      cases r with
      | error e => exact hafter
      | ok a => exact hafter
    refine ⟨r.isOk, ⟨w', some s'⟩, .served hrun, ?_, ?_⟩
    · intro other ho hother
      rcases Database.mem_replace_cases (hpruned.mem ho) with rfl | ⟨-, hne⟩
      · exact Journal.Row.terminal_of_state (s := .ignored) rfl
      · exact absurd hother hne
    · have hcount := Database.activeCount_replace hm
        (show row.id = (row.moved .ignored now).id from rfl)
      have hactive : row.active = true := by
        rw [Row.active, Journal.Row.terminal_of_state hs]
        rfl
      have hended : (row.moved .ignored now).active = false := by
        rw [Row.active, Journal.Row.terminal_of_state (s := .ignored) rfl]
        rfl
      rw [hactive, hended] at hcount
      rw [hpruned.activeCount]
      simpa using hcount
  · exact fun hroom m' hopen row hm hi => hopen.opened_settles hroom hm hi
  · exact fun id hid events' m' hrun => handed_over hrun hid

end

/-- A file that is proposed. -/
theorem ways_out_proposed :
    ∃ (events : List Event) (m : Machine) (s : Service),
      Run .sample (Machine.initial sampleFiles) events m ∧ m.service = some s ∧
      (∃ row ∈ m.world.db.rows, row.state = State.proposed.asStr) ∧
      ∀ row ∈ m.world.db.rows, row.state = State.proposed.asStr →
        ∀ p ∈ s.state.proposals, p.id = row.id → (p.revision : Int) = row.revision →
        p.revision + 1 < 2 ^ 63 →
        ∃ ok m', Step .sample m (.answered (.ignore p.id p.revision) ok) m' ∧
          Ended row.id m'.world ∧ m'.world.db.activeCount + 1 = m.world.db.activeCount := by
  obtain ⟨events, m, hrun, htest⟩ := exists_run (P := .sample) (m := Machine.initial sampleFiles)
    [.start (quietAt 0), .serve (.addRoot (bytes "/w") true false) (quietAt 0),
      .serve .scanOnce (quietAt 0), .serve .scanOnce (quietAt 2)]
    (fun _ m => m.service.isSome && m.world.db.rows.any fun row =>
      row.state = State.proposed.asStr) (by decide +kernel)
  obtain ⟨hs, hrow⟩ := Bool.and_eq_true_iff.mp htest
  obtain ⟨s, hs⟩ := Option.isSome_iff_exists.mp hs
  obtain ⟨row, hm, hrow⟩ := List.any_eq_true.mp hrow
  exact ⟨events, m, s, hrun, hs, ⟨row, hm, of_decide_eq_true hrow⟩, (ways_out hrun).1 s hs⟩

/-- An approval cut after its intent leaves an entry that no later request and no
restart ends. -/
theorem approval_stuck :
    ∃ (events : List Event) (m : Machine) (id : Uuid),
      Run .sample (Machine.initial sampleFiles) events m ∧
      (∃ row ∈ m.world.db.rows, row.id = id ∧ row.terminal = false) ∧
      ∀ events' m', Run .sample m events' m' →
        ∃ row ∈ m'.world.db.rows, row.id = id ∧ row.terminal = false := by
  obtain ⟨events, m, hrun, htest⟩ := exists_run (P := .sample) (m := Machine.initial sampleFiles)
    (Command.enrol (bytes "/d") ++
      [.serve (.chooseDestination ⟨2⟩ 1 ⟨1⟩ ".") (quietAt 3),
       .cut (.approve ⟨2⟩ 2) ((quietAt 4).take 20), .start (quietAt 5)])
    (fun _ m => m.world.db.rows.any fun row =>
      row.id = ⟨2⟩ && row.state = State.needsAttention.asStr)
    (by decide +kernel)
  obtain ⟨row, hm, hrow⟩ := List.any_eq_true.mp htest
  simp only [Bool.and_eq_true, decide_eq_true_eq] at hrow
  have hstays : ∀ w, HandedOver ⟨2⟩ w → ∃ row ∈ w.db.rows, row.id = ⟨2⟩ ∧ row.terminal = false := by
    rintro w ⟨row, hm, hid, hs⟩
    exact ⟨row, hm, hid, Journal.Row.terminal_of_state hs⟩
  have hover : HandedOver ⟨2⟩ m.world := ⟨row, hm, hrow⟩
  exact ⟨events, m, ⟨2⟩, hrun, hstays _ hover, fun _ m' hlater => hstays _ (handed_over hlater hover)⟩

end SortingHat
