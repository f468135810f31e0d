import SortingHat.Service.Ledger
import SortingHat.Service.Runs

/-!
# Steps as chains of deeds

A `Conduct` is a step of a machine seen as what it does, the programs forgotten.
Every step is one, so an invariant of the deeds is an invariant of every run.

* `open_tracks`: an open, from what it has loaded;
* `Step.conduct`: every step of a machine is a conduct;
* `Run.keeps`: what all deeds keep, and a restart keeps, every run keeps.
-/

namespace SortingHat
open Posix Effect Text
open Journal (Row Database State)

section
variable {P : Platform} {A : Tick → Prop} {caller : Option Call} {α β : Type} {s₀ s : Service}
  {w₀ w : World}

/-! ## Opening -/

theorem tracks_forM {f : β → ServiceM PUnit} {J : Service → World → Prop} {l : List β}
    (hf : ∀ b s w, b ∈ l → Deeds P A caller false s₀ w₀ s w → J s w →
      Tracks P A caller s₀ w₀ (f b) (fun _ => J) s w)
    (h : Deeds P A caller false s₀ w₀ s w) (hJ : J s w) :
    Tracks P A caller s₀ w₀ (l.forM f) (fun _ => J) s w := by
  induction l generalizing s w with
  | nil => exact tracks_pure h hJ
  | cons b l ih =>
    show Tracks P A caller s₀ w₀ (f b >>= fun _ => l.forM f) (fun _ => J) s w
    apply tracks_bind ((hf b s w List.mem_cons_self h hJ).mono _)
    intro _ s' w' h hJ _
    exact ih (fun b s w hb => hf b s w (List.mem_cons_of_mem _ hb)) h hJ

/-- The entry says of its row what the row says, unless the row has gone on. -/
def Current (entry : Journal.Entry) (w : World) : Prop :=
  ∀ row ∈ w.db.rows, row.id = entry.id → (entry.revision : Int) ≤ row.revision ∧
    (row.revision = (entry.revision : Int) → row.state = entry.state.asStr)

/-- A row that goes on is not read again. -/
theorem Current.moved {entry : Journal.Entry} {row : Row} {next : State} {now : Int}
    (h : Current entry w) (hm : row ∈ w.db.rows) :
    Current entry { w with db := w.db.replace (row.moved next now) } := by
  intro other ho hid
  obtain ⟨old, hold, rfl⟩ := Database.mem_replace.mp ho
  split at hid
  · next heq =>
    rw [if_pos heq]
    have hle := (h row hm hid).1
    have hnext : (row.moved next now).revision = row.revision + 1 := rfl
    exact ⟨by omega, fun he => by omega⟩
  · next hne =>
    rw [if_neg hne]
    exact h old hold hid

/-- What recovery does to one entry leaves the others current. -/
def KeepsCurrent (w w' : World) : Prop := ∀ entry, Current entry w → Current entry w'

theorem tracks_completeEntry {entry : Journal.Entry} (hcaller : caller = none)
    (hentry : Current entry w) (hstate : entry.state = .sourceRemoved)
    (h : Deeds P A caller false s₀ w₀ s w) :
    Tracks P A caller s₀ w₀ (completeEntry entry) (fun _ _ w' => KeepsCurrent w w') s w := by
  unfold completeEntry
  apply tracks_transition (.inl hcaller) h
  intro row source completed now hpresented hs ha hcompleted hnow
  have hnext : (completed.revision : Int) = row.revision + 1 := by
    rw [hpresented.current, hcompleted]
    rfl
  have hread := (hentry row hpresented.row_mem hpresented.same).2 hpresented.current
  obtain rfl : source = .sourceRemoved :=
    State.asStr_injective (hs.symm.trans (hstate ▸ hread))
  have h := h.snoc (.settled hpresented.row_mem hs rfl ha (.inl ⟨rfl, rfl⟩) hnext hcaller
    (fun _ => some restartWarning) hnow)
  rw [hpresented.same] at h
  exact ⟨⟨h, fun _ hc => hc.moved hpresented.row_mem⟩⟩

theorem tracks_flagEntry {entry : Journal.Entry} (hcaller : caller = none)
    (hentry : Current entry w) (hi : entry.state.interrupted = true)
    (h : Deeds P A caller false s₀ w₀ s w) :
    Tracks P A caller s₀ w₀ (flagEntry P entry) (fun _ _ w' => KeepsCurrent w w') s w := by
  unfold flagEntry
  apply tracks_transition (.inl hcaller) h
  intro row source updated now hpresented hs ha hupdated hnow
  have hnext : (updated.revision : Int) = row.revision + 1 := by
    rw [hpresented.current, hupdated]
    rfl
  have hread := (hentry row hpresented.row_mem hpresented.same).2 hpresented.current
  obtain rfl : source = entry.state := State.asStr_injective (hs.symm.trans hread)
  have h := h.snoc (.settled hpresented.row_mem hs hi ha (.inr ⟨rfl, rfl⟩) hnext hcaller id hnow)
  rw [hpresented.same] at h
  have hkeeps : ∀ fs, KeepsCurrent w
      { w with fs, db := w.db.replace (row.moved .needsAttention now) } :=
    fun fs _ hc => hc.moved hpresented.row_mem
  apply tracks_assign
  apply tracks_bind (tracks_get h _)
  intro h
  split
  · apply tracks_bind (tracks_files h _)
    intro warning fs h
    exact tracks_modifyState h (.warned entry.id warning hcaller) (hkeeps fs)
  · exact tracks_pure h (hkeeps w.fs)

theorem tracks_moveEvidence (entry : Journal.Entry) (h : Deeds P A caller false s₀ w₀ s w) :
    Tracks P A caller s₀ w₀ (moveEvidence P entry) (fun _ _ w' => w'.db = w.db) s w := by
  unfold moveEvidence
  apply tracks_bind (tracks_files h _)
  intro absent fs₁ h
  apply tracks_bind (tracks_get h _)
  intro h
  apply tracks_bind (Tracks.mono (Q := fun _ _ w' => w'.db = w.db) _ _)
  · split
    · exact tracks_files h fun _ _ => rfl
    · exact tracks_pure h rfl
  · intro verified _ _ _ hdb h
    exact tracks_pure h hdb

theorem tracks_recoverEntry {entry : Journal.Entry} (hcaller : caller = none)
    (hentry : Current entry w) (h : Deeds P A caller false s₀ w₀ s w) :
    Tracks P A caller s₀ w₀ (recoverEntry P entry) (fun _ _ w' => KeepsCurrent w w') s w := by
  unfold recoverEntry
  apply tracks_bind (Tracks.mono (Q := fun done _ w' =>
    w'.db = w.db ∧ (done = true → entry.state = .sourceRemoved)) _ _)
  · split
    · next hstate =>
      apply (tracks_moveEvidence entry h).mono
      exact fun _ _ _ _ hdb => ⟨hdb, fun _ => hstate⟩
    · exact tracks_pure h ⟨rfl, nofun⟩
  rintro done s' w' - ⟨hdb, hdone⟩ h
  have hentry : Current entry w' := fun row hm => hentry row (hdb ▸ hm)
  have hkeeps : ∀ w'', KeepsCurrent w' w'' → KeepsCurrent w w'' := fun w'' hk e he =>
    hk e fun row hm => he row (hdb ▸ hm)
  split
  · next hd =>
    apply (tracks_completeEntry hcaller hentry (hdone hd) h).mono
    exact fun _ _ w'' _ hk => hkeeps w'' hk
  · split
    · next hi =>
      apply (tracks_flagEntry hcaller hentry hi h).mono
      exact fun _ _ w'' _ hk => hkeeps w'' hk
    · exact tracks_pure h (hkeeps w' fun _ he => he)

theorem tracks_recover (hcaller : caller = none) (h : Deeds P A caller false s₀ w₀ s w) :
    Tracks P A caller s₀ w₀ (recoverWithoutGuessing P) (fun _ => Installed) s w := by
  unfold recoverWithoutGuessing
  have hread : Tracks P A caller s₀ w₀ (ofJournal Journal.nonterminal)
      (fun entries s' w' => s' = s ∧ w' = w ∧ ∀ entry ∈ entries, Current entry w) s w := by
    refine ⟨(wpS_embed _ _).mpr ((wpE_inPart _ _).mpr ?_)⟩
    refine Journal.nonterminal_reads.wpE ⟨s, h.relax⟩ (fun _ => h.relax) fun entries hread =>
      ⟨h, rfl, rfl, fun entry he row hm hid => ?_⟩
    obtain ⟨i, hi, rfl⟩ := List.getElem_of_mem he
    have hlen := List.Forall₂.length_eq hread
    have hr : Journal.Row.Reads _ _ := (List.forall₂_iff_get.mp hread).2 i (hlen ▸ hi) hi
    have hmem : w.db.nonterminal.get ⟨i, hlen ▸ hi⟩ ∈ w.db.rows :=
      (mem_nonterminal (List.get_mem _ _)).1
    obtain rfl := List.inj_on_of_nodup_map w.db.keyed hm hmem (hid.trans hr.id)
    exact ⟨Int.le_of_eq hr.revision, fun _ => hr.state⟩
  apply tracks_bind (hread.mono _)
  rintro entries s' w' - ⟨rfl, rfl, hentries⟩ h
  apply tracks_bind ((tracks_forM (J := fun _ w' => ∀ entry ∈ entries, Current entry w') _ h
    hentries).mono _)
  · intro entry s w he h hJ
    apply (tracks_recoverEntry hcaller (hJ entry he) h).mono
    exact fun _ _ w' _ hk entry he => hk entry (hJ entry he)
  · intro _ s' w' _ _ h
    exact tracks_save h fun w'' hi _ _ => hi

theorem tracks_settleIn (hcaller : caller = none) (h : Deeds P A caller false s₀ w₀ s w) :
    Tracks P A caller s₀ w₀ (Service.settleIn P) (fun _ => Installed) s w := by
  unfold Service.settleIn
  have hr : Retains caller = true := by rw [hcaller]; rfl
  apply tracks_bind (tracks_retention hr h _)
  intro now _ h
  unfold pruneProposals
  apply tracks_bind (tracks_modifyState h (.pruned hr) _)
  intro h
  exact tracks_recover hcaller h

/-- The rest of an open goes on from what is loaded. -/
theorem openWith_tracks {loaded : PersistentState}
    (h : Deeds P A none false (Service.fresh loaded) w₀ (Service.fresh loaded) w) :
    wpE A (Service.openWith P loaded)
      (fun s w' => Deeds P A none false (Service.fresh loaded) w₀ s w' ∧ Installed s w')
      (fun _ w' => ∃ s, Deeds P A none true (Service.fresh loaded) w₀ s w')
      (fun w' => ∃ s, Deeds P A none true (Service.fresh loaded) w₀ s w') w := by
  have hhere : ∃ s, Deeds P A none true (Service.fresh loaded) w₀ s w := ⟨_, h.relax⟩
  unfold Service.openWith
  refine (wpE_bind _ _).mpr ((Reads.recast _ (Journal.query_reads _).inPart).wpE hhere
    (fun _ => hhere) fun _ _ => ?_)
  refine (wpE_bind _ _).mpr ((wpE_within _).mpr ?_)
  refine wpS_mono (tracks_settleIn rfl h).wp ?_ ?_ ?_
  · exact fun _ _ _ h => h
  · exact fun _ s _ h => ⟨s, h⟩
  · exact fun _ h => h

/-- What can have been loaded from `state.json`. -/
abbrev Loads (A : Tick → Prop) (w : World) (state : PersistentState) : Prop :=
  Recalled A w.stateJson state

/-- What an open has done that did not finish. -/
def Unopened (P : Platform) (A : Tick → Prop) (w w' : World) : Prop :=
  (∃ fs, w' = { w with fs }) ∨
    ∃ loaded s', Loads A w loaded ∧ Deeds P A none true (Service.fresh loaded) w s' w'

/-- **An open is a chain of deeds** of the service it has loaded, and a finished
one has saved it. -/
theorem open_tracks : wpE A (Service.open P)
    (fun s w' => ∃ loaded, Loads A w loaded ∧
      Deeds P A none false (Service.fresh loaded) w s w' ∧ Installed s w')
    (fun _ w' => Unopened P A w w') (fun w' => Unopened P A w w') w := by
  have hstart : ∀ fs, Unopened P A w { w with fs } := fun fs => .inl ⟨fs, rfl⟩
  unfold Service.open
  refine (wpE_bind _ _).mpr ((wpE_recast _ _).mpr ((wpE_inPart _ _).mpr
    (Prog.wp_trivial ?_ fun fs => hstart fs)))
  rintro (e | ⟨⟩) fs
  · exact hstart fs
  refine (wpE_bind _ _).mpr (loadState_recalls.inPart.wpE (hstart fs) (fun _ => hstart fs)
    fun state hstate => ?_)
  have h : Deeds P A none false (Service.fresh state) w (Service.fresh state) { w with fs } :=
    Deeds.refl.snoc (.files fs)
  refine wpE_mono (openWith_tracks h) ?_ ?_ ?_
  · exact fun _ _ h => ⟨state, hstate, h⟩
  · exact fun _ _ ⟨s, h⟩ => .inr ⟨state, s, hstate, h⟩
  · exact fun _ ⟨s, h⟩ => .inr ⟨state, s, hstate, h⟩

end

/-! ## Requests -/

theorem Call.perform_tracks {P : Platform} (call : Call) (s : Service) (w : World) :
    Tracks P A (some call) s w (call.perform P) (fun _ => Answered s w) s w := by
  have h : Deeds P A (some call) false s w s w := .refl
  cases call with
  | setPaused paused => exact tracks_setPaused paused h
  | configureMetadataAgent executable fixedArgs =>
    apply tracks_bind ((tracks_configureMetadataAgent executable fixedArgs h).mono _)
    exact fun _ _ _ _ ha h => tracks_pure h ha
  | disableAgent =>
    apply tracks_bind ((tracks_disableAgent h).mono _)
    exact fun _ _ _ _ ha h => tracks_pure h ha
  | addRoot path watched destination =>
    apply tracks_bind ((tracks_addRoot path watched destination rfl id h).mono _)
    exact fun _ _ _ _ ha h => tracks_pure h ha.1
  | removeRoot id => exact tracks_removeRoot id rfl h
  | createRuleFromProposal id priority =>
    apply tracks_bind ((tracks_createRuleFromProposal id priority rfl h).mono _)
    exact fun _ _ _ _ ha h => tracks_pure h ha
  | scanOnce =>
    apply tracks_bind ((tracks_scanOnce rfl h).mono _)
    exact fun _ _ _ _ ha h => tracks_pure h ha
  | chooseDestination id revision rootId directory =>
    apply tracks_bind ((tracks_chooseDestination id revision rootId directory
      ⟨_, revision, rfl, rfl⟩ h).mono _)
    exact fun _ _ _ _ ha h => tracks_pure h ha
  | chooseDestinationPath id revision folder =>
    apply tracks_bind ((tracks_chooseDestinationPath id revision folder
      ⟨_, revision, rfl, rfl⟩ rfl h).mono _)
    exact fun _ _ _ _ ha h => tracks_pure h ha
  | renameProposal id revision name =>
    apply tracks_bind ((tracks_renameProposal id revision name rfl h).mono _)
    exact fun _ _ _ _ ha h => tracks_pure h ha
  | ignore id revision =>
    apply tracks_bind ((tracks_ignore id revision rfl ⟨_, revision, rfl, rfl⟩ h).mono _)
    exact fun _ _ _ _ ha h => tracks_pure h ha
  | approve id revision =>
    apply tracks_bind ((tracks_approve id revision rfl ⟨_, revision, rfl, rfl⟩ h).mono _)
    exact fun _ _ _ _ ha h => tracks_pure h ha
  | undo id revision =>
    apply tracks_bind ((tracks_undo id revision rfl ⟨_, revision, rfl, rfl⟩ h).mono _)
    exact fun _ _ _ _ ha h => tracks_pure h ha

/-! ## Steps -/

/-- A step of a machine as what it does. -/
inductive Conduct (P : Platform) (A : Tick → Prop) : Machine → Event → Machine → Prop where
  | served {w w' : World} {s s' : Service} {call : Call} {ok : Bool}
      (h : Deeds P A (some call) (!ok) s w s' w') (ha : ok = true → Answered s w s' w') :
      Conduct P A ⟨w, some s⟩ (.answered call ok) ⟨w', some s'⟩
  | cut {w w' : World} {s s' : Service} {call : Call}
      (h : Deeds P A (some call) true s w s' w') : Conduct P A ⟨w, some s⟩ (.died call) ⟨w', none⟩
  | ended {w : World} {s : Service} : Conduct P A ⟨w, some s⟩ (.died none) ⟨w, none⟩
  | opened {w w' : World} {loaded : PersistentState} {s : Service} (hl : Loads A w loaded)
      (h : Deeds P A none false (Service.fresh loaded) w s w') (hi : Installed s w') :
      Conduct P A ⟨w, none⟩ .opened ⟨w', some s⟩
  | stopped {w w' : World} (h : Unopened P A w w') : Conduct P A ⟨w, none⟩ .stopped ⟨w', none⟩
  | files {w : World} {service : Option Service} (fs : FileSystem) :
      Conduct P A ⟨w, service⟩ .files ⟨{ w with fs }, service⟩

section
variable {P : Platform} {A : Tick → Prop} {m m' : Machine} {event : Event} {events : List Event}

/-- The ticks of a command. -/
def Command.ticks : Command → List Tick
  | serve _ ticks | cut _ ticks | start ticks | stop ticks => ticks
  | quit | files _ => []

/-- What a command comes out as. -/
def Command.Yields : Command → Event → Prop
  | serve call _, event => ∃ ok, event = .answered call ok
  | cut call _, event => event = .died call
  | quit, event => event = .died none
  | start _, event => event = .opened
  | stop _, event => event = .stopped
  | files _, event => event = .files

theorem Command.yields {command : Command} (h : m.step? P command = some (event, m')) :
    command.Yields event := by
  obtain ⟨w, service⟩ := m
  cases command with
  | serve call ticks =>
    cases service with
    | none => cases h
    | some s =>
      simp only [Machine.step?] at h
      split at h
      · cases h
        exact ⟨_, rfl⟩
      · cases h
  | start ticks =>
    cases service with
    | some s => cases h
    | none =>
      simp only [Machine.step?] at h
      split at h
      · cases h
        rfl
      · cases h
      · cases h
  | cut _ _ | quit | stop _ =>
    cases service <;> cases h
    rfl
  | files change =>
    cases h
    rfl

/-- **Every command is a chain of deeds**, with the clock that its ticks read. -/
theorem Command.conduct {command : Command} (h : m.step? P command = some (event, m'))
    (hA : ∀ t ∈ command.ticks, A t) : Conduct P A m event m' := by
  obtain ⟨w, service⟩ := m
  cases command with
  | serve call ticks =>
    cases service with
    | none => cases h
    | some s =>
      have hafter := Prog.wp_after (call.perform_tracks (P := P) s w).wp ticks hA
      unfold Machine.step? at h
      dsimp only at h
      split at h
      · next r s' w' hr =>
        cases h
        rw [hr] at hafter
        cases r with
        | error e => exact .served hafter nofun
        | ok a => exact .served hafter.1 fun _ => hafter.2
      · cases h
  | cut call ticks =>
    cases service with
    | none => cases h
    | some s =>
      have hafter := Prog.wp_after (call.perform_tracks (P := P) s w).wp ticks hA
      cases h
      cases hr : ((call.perform P).start s).after ticks w with
      | mk rest w' =>
        rw [hr] at hafter
        cases rest with
        | step u n =>
          obtain ⟨s', hd⟩ := hafter
          exact .cut hd
        | done r =>
          obtain ⟨e | a, s'⟩ := r
          · exact .cut hafter
          · exact .cut hafter.1.relax
  | quit =>
    cases service with
    | none => cases h
    | some s =>
      cases h
      exact .ended
  | start ticks =>
    cases service with
    | some s => cases h
    | none =>
      have hafter := Prog.wp_after (open_tracks (P := P) (w := w)) ticks hA
      unfold Machine.step? at h
      dsimp only at h
      split at h
      · next s w' hr =>
        cases h
        rw [hr] at hafter
        obtain ⟨loaded, hl, hd, hi⟩ := hafter
        exact .opened hl hd hi
      · cases h
      · cases h
  | stop ticks =>
    cases service with
    | some s => cases h
    | none =>
      have hafter := Prog.wp_after (open_tracks (P := P) (w := w)) ticks hA
      cases h
      cases hr : (ExceptT.run (Service.open P)).after ticks w with
      | mk rest w' =>
        rw [hr] at hafter
        cases rest with
        | step u n => exact .stopped hafter
        | done r =>
          cases r with
          | error e => exact .stopped hafter
          | ok s =>
            obtain ⟨loaded, hl, hd, -⟩ := hafter
            exact .stopped (.inr ⟨loaded, s, hl, hd.relax⟩)
  | files change =>
    cases h
    exact .files _

/-- Every step is the step of a command. -/
theorem Step.command (h : Step P m event m') : ∃ command, m.step? P command = some (event, m') := by
  cases h with
  | @served w w' s s' call ticks r h =>
    refine ⟨.serve call ticks, ?_⟩
    simp only [Machine.step?, h]
  | @cut w w' s call ticks rest h =>
    refine ⟨.cut call ticks, ?_⟩
    simp only [Machine.step?, h]
  | ended => exact ⟨.quit, rfl⟩
  | @opened w w' s ticks h =>
    refine ⟨.start ticks, ?_⟩
    simp only [Machine.step?, h]
  | @stopped w w' ticks rest h =>
    refine ⟨.stop ticks, ?_⟩
    simp only [Machine.step?, h]
  | files fs => exact ⟨.files fun _ => fs, rfl⟩

/-- What a request that was answered has done. -/
theorem Step.answered {call : Call} {ok : Bool} (h : Step P m (.answered call ok) m') :
    ∃ w s w' s' ticks r, m = ⟨w, some s⟩ ∧ m' = ⟨w', some s'⟩ ∧ r.isOk = ok ∧
      ((call.perform P).start s).after ticks w = (.done (r, s'), w') := by
  generalize he : Event.answered call ok = event at h
  cases h with
  | served h =>
    cases he
    exact ⟨_, _, _, _, _, _, rfl, rfl, rfl, h⟩
  | _ => cases he

/-- What holds after every error of a request, holds after a refusal. -/
theorem Step.refused {call : Call} {Q : Unit → Service → World → Prop}
    {E : Service → World → Service → World → Prop} (h : Step P m (.answered call false) m')
    (hcall : ∀ s w, wpS (fun _ => True) (call.perform P) Q (fun _ => E s w) (fun _ => True) s w) :
    ∃ w s w' s', m = ⟨w, some s⟩ ∧ m' = ⟨w', some s'⟩ ∧ E s w s' w' := by
  obtain ⟨w, s, w', s', ticks, r, rfl, rfl, hr, hafter⟩ := h.answered
  have hholds := Prog.wp_after (hcall s w) ticks fun _ _ => trivial
  rw [hafter] at hholds
  cases r with
  | ok a => cases hr
  | error e => exact ⟨w, s, w', s', rfl, rfl, hholds⟩

/-- **Every step of a machine is a chain of deeds.** -/
theorem Step.conduct (h : Step P m event m') : Conduct P (fun _ => True) m event m' := by
  obtain ⟨command, hc⟩ := h.command
  exact Command.conduct hc fun _ _ => trivial

/-- What a deed does to the journal is what its statements do. -/
theorem Deed.change {caller : Option Call} {lossy : Bool} {s s' : Service} {w w' : World}
    (h : Deed P A caller lossy s w s' w') : w'.db = w.db ∨ Journal.Change w.db w'.db := by
  cases h with
  | files | sampled | drew | paused | advised | rooted | unrooted | ruled | warned | pruned
  | installed => exact .inl rfl
  | proposed hb hi => exact .inr (.created hi hb.row_state hb.row_revision)
  | redirected hp _ _ hstate => exact .inr (.replaced hp.row_mem (.redirected _ _ hstate))
  | renamed hp _ _ hstate => exact .inr (.replaced hp.row_mem (.redirected _ _ hstate))
  | approved hp _ _ hstate => exact .inr (.replaced hp.row_mem (.moved _ hstate rfl))
  | moved hm hs ha => exact .inr (.replaced hm (.moved _ hs ha))
  | finished hp hs ha => exact .inr (.replaced hp.row_mem (.moved _ hs ha))
  | settled hm hs _ ha => exact .inr (.replaced hm (.moved _ hs ha))
  | hashed hm => exact .inr (.replaced hm (.hashed _ _))
  | aged =>
    refine .inr (.deleted _ fun row _ hd => ?_)
    rw [Bool.and_eq_true] at hd
    exact hd.1
  | trimmed => exact .inr (.deleted _ fun row hm hd => Database.terminal_of_surplus hm hd)
  | lost _ hm hf => exact .inr (.replaced hm hf)

/-- What holds of a service and its world, or would hold of any that is loaded. -/
def Machine.Meets (A : Tick → Prop) (I : Service → World → Prop) (m : Machine) : Prop :=
  match m.service with
  | some s => I s m.world
  | none => ∀ loaded, Loads A m.world loaded → I (.fresh loaded) m.world

theorem Conduct.keeps {I : Service → World → Prop} (h : Conduct P A m event m')
    (hdeed : ∀ lossy s w s' w', I s w → Deed P A event.call lossy s w s' w' → I s' w')
    (hload : ∀ s w loaded, I s w → Loads A w loaded → I (.fresh loaded) w)
    (hm : m.Meets A I) : m'.Meets A I := by
  have hfiles : ∀ lossy s w fs, I s w → I s { w with fs } := fun lossy s w fs hI =>
    hdeed lossy s w s _ hI (.files fs)
  cases h with
  | served h ha => exact h.keeps (hdeed _) hm
  | cut h => exact fun loaded hl => hload _ _ loaded (h.keeps (hdeed _) hm) hl
  | ended => exact fun loaded hl => hload _ _ loaded hm hl
  | opened hl h hi => exact h.keeps (hdeed _) (hm _ hl)
  | stopped h =>
    intro loaded hl
    rcases h with ⟨fs, rfl⟩ | ⟨loaded', s', hl', hd⟩
    · exact hfiles false _ _ fs (hm loaded hl)
    · exact hload _ _ loaded (hd.keeps (hdeed _) (hm _ hl')) hl
  | @files w service fs =>
    cases service with
    | some s => exact hfiles false s w fs hm
    | none => exact fun loaded hl => hfiles false _ w fs (hm loaded hl)

/-- **What every deed keeps, and a restart keeps, every run keeps.** -/
theorem Run.keeps {I : Service → World → Prop} (h : Run P m events m')
    (hdeed : ∀ event ∈ events, ∀ lossy s w s' w', I s w →
      Deed P (fun _ => True) event.call lossy s w s' w' → I s' w')
    (hload : ∀ s w loaded, I s w → Loads (fun _ => True) w loaded → I (.fresh loaded) w)
    (hm : m.Meets (fun _ => True) I) : m'.Meets (fun _ => True) I := by
  induction h with
  | nil => exact hm
  | @snoc events event _ _ _ hstep ih =>
    apply hstep.conduct.keeps
    · exact hdeed event (List.mem_append_right _ (List.mem_singleton_self event))
    · exact hload
    · exact ih fun e he => hdeed e (List.mem_append_left _ he)

/-- The same for what is durable alone. -/
theorem Run.keeps_world {D : World → Prop} (h : Run P m events m')
    (hdeed : ∀ caller lossy s w s' w', D w → Deed P (fun _ => True) caller lossy s w s' w' → D w')
    (hm : D m.world) : D m'.world := by
  have hmeets : ∀ m : Machine, m.Meets (fun _ => True) (fun _ => D) ↔ D m.world := by
    rintro ⟨w, service⟩
    cases service with
    | some s => exact Iff.rfl
    | none =>
      have hloads : Loads (fun _ => True) w .initial :=
        .inl ⟨rfl, .inr ⟨⟨none, some .IOERR, 0, 0, .notStarted⟩, trivial, nofun⟩⟩
      exact ⟨fun h => h .initial hloads, fun h _ _ => h⟩
  apply (hmeets m').mp
  apply h.keeps
  · exact fun event _ => hdeed event.call
  · exact fun _ _ _ h _ => h
  · exact (hmeets m).mpr hm

/-! ## Runs with their commands -/

/-- Every command of the list meets `C` on the machine it is carried out on. -/
def Machine.Along (P : Platform) (C : Machine → Command → Prop) : Machine → List Command → Prop
  | _, [] => True
  | m, command :: commands =>
    C m command ∧ ∀ event m', m.step? P command = some (event, m') → m'.Along P C commands

/-- The same for a test. -/
def Machine.along? (P : Platform) (test : Machine → Command → Bool) : Machine → List Command → Bool
  | _, [] => true
  | m, command :: commands =>
    test m command && (m.step? P command).all fun r => r.2.along? P test commands

theorem Machine.along_of_test {C : Machine → Command → Prop} {test : Machine → Command → Bool}
    (hC : ∀ m command, test m command = true → C m command) {commands : List Command}
    (h : m.along? P test commands = true) : m.Along P C commands := by
  induction commands generalizing m with
  | nil => trivial
  | cons command commands ih =>
    unfold Machine.along? at h
    obtain ⟨hnow, hlater⟩ := Bool.and_eq_true_iff.mp h
    refine ⟨hC m command hnow, fun event m' hstep => ih ?_⟩
    rw [hstep] at hlater
    exact hlater

/-- Every run carries out commands. -/
theorem Run.commands (h : Run P m events m') :
    ∃ commands, m.replay? P commands = some (events, m') := by
  suffices ∀ (rest : List Command) (later : List Event) (m'' : Machine),
      m'.replay? P rest = some (later, m'') →
      ∃ commands, m.replay? P commands = some (events ++ later, m'') by
    obtain ⟨commands, hc⟩ := this [] [] m' rfl
    exact ⟨commands, by rw [hc, List.append_nil]⟩
  induction h with
  | nil => exact fun rest later m'' h => ⟨rest, h⟩
  | @snoc events event m₁ m₂ hrun hstep ih =>
    intro rest later m'' h
    obtain ⟨command, hc⟩ := hstep.command
    obtain ⟨commands, hr⟩ := ih (command :: rest) (event :: later) m'' (by
      simp [Machine.replay?, hc, h])
    exact ⟨commands, by rw [hr, List.append_assoc]; rfl⟩

end
end SortingHat
