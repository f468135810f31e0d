import SortingHat.Service.Opening
import SortingHat.Service.Endings

/-!
# A move that fails

An error of `approve` or `undo` before the intent is committed leaves no trace.
After it the entry has left the state the request was for.

* `Refused`, `Intended`: the two;
* `failed_move`: there is no third.
-/

namespace SortingHat
open Posix Effect Text
open Journal (Row Database State)

/-- The state a move starts from, and the one that stands for its intent. -/
def Call.intent : Call → Option (State × State)
  | approve _ _ => some (.proposed, .approved)
  | undo _ _ => some (.completed, .undoing)
  | _ => none

/-- Nothing but the files can have changed. -/
structure Refused (m m' : Machine) : Prop where
  service : m'.service = m.service
  db : m'.world.db = m.world.db
  stateJson : m'.world.stateJson = m.world.stateJson

/-- The row that stood at `revision` in state `source` has gone on to `next`. -/
def Intended (db db' : Database) (id : Uuid) (revision : Nat) (source next : State) : Prop :=
  ∃ row ∈ db.rows, row.id = id ∧ row.revision = revision ∧ row.state = source.asStr ∧
    ∃ now, row.moved next now ∈ db'.commits

section
variable {P : Platform} {A : Tick → Prop} {α β : Type} {s s' : Service} {w w' : World} {id : Uuid}
  {revision : Nat}
  {source next : State}

theorem Deeds.committed {caller : Option Call} {lossy : Bool} {c : Row}
    (h : Deeds P A caller lossy s w s' w') (hc : c ∈ w.db.commits) : c ∈ w'.db.commits := by
  apply h.keeps (I := fun _ w => c ∈ w.db.commits) _ hc
  intro s w s' w' hc hdeed
  rcases hdeed.change with hdb | hchange
  · exact hdb ▸ hc
  · exact hchange.commits_subset hc

/-- Nothing but the files can have changed, or the intent is committed. -/
def FailedFrom (s : Service) (w : World) (id : Uuid) (revision : Nat) (source next : State)
    (s' : Service) (w' : World) : Prop :=
  s' = s ∧ w'.db = w.db ∧ w'.stateJson = w.stateJson ∨ Intended w.db w'.db id revision source next

/-- The intent, and what the request does from there on. -/
theorem intent_wp (caller : Option Call) {f : Journal.Entry → ServiceM α}
    (hsource : ∀ old, Journal.allowed old next = true → old = source) (hw : Untouched A w w')
    (hf : ∀ row entry now, Presented w' id revision row → ∃ s₀ Q,
      Tracks P A caller s₀ { w' with db := w'.db.replace (row.moved next now) } (f entry) Q s
        { w' with db := w'.db.replace (row.moved next now) }) :
    wpS A (ofJournal (Journal.transition id revision next) >>= f) (fun _ _ _ => True)
      (fun _ => FailedFrom s w id revision source next) (fun _ => True) s w' := by
  have hsame : FailedFrom s w id revision source next s w' := .inl ⟨rfl, hw.db, hw.stateJson⟩
  refine (wpS_bind _ _).mpr ((wpS_embed _ _).mpr ((wpE_inPart _ _).mpr ?_))
  refine Journal.transition_wp trivial (fun _ => hsame) fun row old t ht hfind hrev hs ha => ?_
  obtain ⟨hm, hid⟩ := Database.find_eq_some.mp hfind
  obtain rfl := hsource old ha
  have hcommit : row.moved next t.seconds ∈ (w'.db.replace (row.moved next t.seconds)).commits :=
    List.mem_append_right _ (List.mem_singleton_self _)
  have hintended : ∀ (s₁ : Service) (w₁ : World), row.moved next t.seconds ∈ w₁.db.commits →
      FailedFrom s w id revision old next s₁ w₁ := fun s₁ w₁ hc =>
    .inr ⟨row, hw.db ▸ hm, hid, hrev, hs, t.seconds, hc⟩
  refine ⟨trivial, fun _ => hintended _ _ hcommit, fun entry _ => ?_⟩
  obtain ⟨s₀, Q, htracks⟩ := hf row entry t.seconds ⟨hm, hid, hrev⟩
  apply wpS_mono htracks.wp
  · exact fun _ _ _ _ => trivial
  · exact fun _ s₁ w₁ hd => hintended s₁ w₁ (hd.committed hcommit)
  · exact fun _ _ => trivial

theorem approve_fails (s : Service) (w : World) : wpS A (approve P id revision) (fun _ _ _ => True)
    (fun _ => FailedFrom s w id revision .proposed .approved) (fun _ => True) s w := by
  unfold approve
  refine (wpS_bind _ _).mpr (wpS_mono ((approveChecks_looks id revision).wp fun _ => rfl) ?_ ?_ ?_)
  · rintro ⟨o, verifiedFd⟩ s' w' ⟨rfl, hu, haim, -⟩
    dsimp only
    rw [approveMove_eq]
    apply intent_wp (some (.approve id revision)) (fun _ => proposed_of_allowed) hu
    intro row entry now hpresented
    obtain ⟨hpaired, -, -⟩ := hpresented.paired haim.index haim.found
    exact ⟨_, _, tracks_approveIntended verifiedFd rfl ⟨.approve id revision, revision, rfl, rfl⟩
      haim.found (hpaired.same.symm.trans hpresented.same) .refl⟩
  · rintro e s' w' ⟨rfl, hu⟩
    exact .inl ⟨rfl, hu.db, hu.stateJson⟩
  · exact fun _ _ => trivial

theorem undo_fails (s : Service) (w : World) : wpS A (undo P id revision) (fun _ _ _ => True)
    (fun _ => FailedFrom s w id revision .completed .undoing) (fun _ => True) s w := by
  unfold undo
  refine (wpS_bind _ _).mpr (wpS_mono ((undoChecks_looks id revision).wp fun _ => rfl) ?_ ?_ ?_)
  · rintro ⟨o, relative⟩ s' w' ⟨rfl, hu, haim, -⟩
    dsimp only
    rw [undoMove_eq]
    apply intent_wp (P := P) (some (.undo id revision)) (fun _ => Journal.allowed_undoing) hu
    intro row entry now hpresented
    obtain ⟨hpaired, -, -⟩ := hpresented.paired haim.index haim.found
    exact ⟨_, _, tracks_undoIntended relative rfl ⟨.undo id revision, revision, rfl, rfl⟩
      haim.found (hpaired.same.symm.trans hpresented.same) .refl⟩
  · rintro e s' w' ⟨rfl, hu⟩
    exact .inl ⟨rfl, hu.db, hu.stateJson⟩
  · exact fun _ _ => trivial

end

section
variable {P : Platform} {m m' : Machine}

/-- **A failed move has left no trace, or has committed its intent.** -/
theorem failed_move {call : Call} {id : Uuid} {revision : Nat} {source next : State}
    (hp : call.presents = some (id, revision)) (hi : call.intent = some (source, next))
    (h : Step P m (.answered call false) m') :
    Refused m m' ∨ Intended m.world.db m'.world.db id revision source next := by
  have hcall : ∀ s w, wpS (fun _ => True) (call.perform P) (fun _ _ _ => True)
      (fun _ => FailedFrom s w id revision source next) (fun _ => True) s w := by
    intro s w
    cases call <;> cases hi <;> cases hp
    · exact (wpS_bind _ _).mpr (approve_fails s w)
    · exact (wpS_bind _ _).mpr (undo_fails s w)
  obtain ⟨w, s, w', s', rfl, rfl, hkept | hintended⟩ := h.refused hcall
  · obtain ⟨rfl, hdb, hjson⟩ := hkept
    exact .inl ⟨rfl, hdb, hjson⟩
  · exact .inr hintended

end

/-- A proposal without a destination. -/
theorem failed_move_undecided :
    ∃ m m', Step .sample m (.answered (.approve ⟨2⟩ 1) false) m' ∧
      (Refused m m' ∨ Intended m.world.db m'.world.db ⟨2⟩ 1 .proposed .approved) := by
  obtain ⟨_, m, m', -, hstep, -⟩ := exists_refused (P := .sample) (m := Machine.initial sampleFiles)
    (Command.enrol (bytes "/d")) (.approve ⟨2⟩ 1) (quietAt 3) (fun _ _ => true) (by decide +kernel)
  exact ⟨m, m', hstep, failed_move rfl rfl hstep⟩

/-- The source is edited after it was proposed. The refused approval has moved
nothing, and the entry cannot be approved or ignored any more. -/
theorem failed_move_stuck :
    ∃ (events : List Event) (m m' : Machine), Run .sample (Machine.initial sampleFiles) events m ∧
      Step .sample m (.answered (.approve ⟨2⟩ 2) false) m' ∧
      (∀ path ∈ [bytes "/w", bytes "/d"], m'.world.fs.readDir path = m.world.fs.readDir path) ∧
      (∃ row ∈ m.world.db.rows, row.id = ⟨2⟩ ∧ row.revision = 2 ∧
        row.state = State.proposed.asStr) ∧
      ∀ row ∈ m'.world.db.rows, row.id = ⟨2⟩ → row.revision = 3 ∧
        row.state = State.approved.asStr := by
  obtain ⟨events, m, m', hrun, hstep, htest⟩ := exists_refused (P := .sample)
    (m := Machine.initial sampleFiles)
    (Command.enrol (bytes "/d") ++ [.serve (.chooseDestination ⟨2⟩ 1 ⟨1⟩ ".") (quietAt 3),
      .files fun fs => fs.modify ⟨0, 4⟩ fun inode => { inode with modifiedNs := 9 }])
    (.approve ⟨2⟩ 2) (quietAt 4)
    (fun m m' => ([bytes "/w", bytes "/d"].all fun path =>
        decide (m'.world.fs.readDir path = m.world.fs.readDir path)) &&
      (m.world.db.rows.any fun row => decide (row.id = ⟨2⟩ ∧ row.revision = 2 ∧
        row.state = State.proposed.asStr)) &&
      m'.world.db.rows.all fun row => decide (row.id = ⟨2⟩ → row.revision = 3 ∧
        row.state = State.approved.asStr))
    (by decide +kernel)
  simp only [Bool.and_eq_true, List.all_eq_true, List.any_eq_true, decide_eq_true_eq] at htest
  exact ⟨events, m, m', hrun, hstep, htest.1.1, htest.1.2, htest.2⟩

end SortingHat
