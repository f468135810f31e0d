import SortingHat.Service.Route
import SortingHat.Service.Integrity

/-!
# Requests for another revision

A request for a proposal that the queue or the journal does not have at its revision
changes nothing. The one that names a folder enrols the folder first.

* `Stale`: queue or journal does not have it;
* `Enlists`: the folder would be enrolled;
* `stale_changes_nothing`: nothing changes exactly where nothing is enrolled.
-/

namespace SortingHat
open Posix Effect Text
open Journal (Row Database State)

/-- Queue or journal does not have the proposal at this revision. -/
def Stale (s : Service) (w : World) (id : Uuid) (revision : Nat) : Prop :=
  ¬((∃ p, s.state.findProposal id = some p ∧ p.revision = revision) ∧
    ∃ row ∈ w.db.rows, row.id = id ∧ row.revision = (revision : Int))

/-- `add_root` would enrol the folder as a destination. -/
structure Enrollable (state : PersistentState) (fs : FileSystem) (folder : Bytes) : Prop where
  room : state.roots.length < maxRoots
  directory : DirectoryAt fs folder
  fresh : ∃ canonical display fd, fs.canonicalize folder = .ok canonical ∧
    toStr canonical = some display ∧ (∀ root ∈ state.roots, root.path ≠ display) ∧
    fs.openDirectory canonical = .ok fd

/-- The folder is in no registered destination, and would be enrolled as one. -/
def Enlists (state : PersistentState) (fs : FileSystem) (folder : Bytes) : Prop :=
  DirectoryAt fs folder ∧ ∃ canonical, fs.canonicalize folder = .ok canonical ∧
    (∀ root ∈ state.roots, root.destination = true →
      Path.startsWith canonical (bytes root.path) = false) ∧
    Enrollable state fs canonical

section
variable {A : Tick → Prop} {P : Platform} {fs : FileSystem} {s : Service} {w : World} {id : Uuid}
  {revision : Nat} {α : Type}

/-! ## Up to the journal -/

/-- After a look the journal is as it was. -/
theorem looks_then {β : Type} {x : ServiceM α} {f : α → ServiceM β} {R : α → Prop} {Q : β → Prop}
    (hx : Looks A fs x R s w) (hf : ∀ a w', w'.db = w.db → R a → Looks A fs (f a) Q s w') :
    Looks A fs (x >>= f) Q s w := by
  constructor
  intro hfs
  refine (wpS_bind _ _).mpr (wpS_mono (hx.wp hfs) ?_ (fun _ _ _ h => h) fun _ h => h)
  rintro a s' w' ⟨rfl, hu, ha⟩
  apply wpS_mono ((hf a w' hu.db ha).wp fun hq => (hu.fs hq).trans (hfs hq))
  · exact fun b s'' w'' h => ⟨h.1, hu.trans h.2.1, h.2.2⟩
  · exact fun _ s'' w'' h => ⟨h.1, hu.trans h.2⟩
  · exact fun w'' h => hu.trans h

/-- What does not return does not go on. -/
theorem looks_never {β : Type} {x : ServiceM α} {f : α → ServiceM β} {Q : β → Prop}
    (hx : Looks A fs x (fun _ => False) s w) : Looks A fs (x >>= f) Q s w :=
  looks_then hx fun _ _ _ h => h.elim

theorem Stale.not_both (h : Stale s w id revision) {index : Nat} {p : Proposal}
    (hindex : s.state.proposalIndex id revision = .ok index)
    (hp : s.state.proposals[index]? = some p) :
    ∀ row ∈ w.db.rows, row.id = id → row.revision ≠ (revision : Int) := by
  intro row hm hid hrevision
  obtain ⟨found, hfound, -, hr⟩ := proposalIndex_eq_ok hindex
  obtain rfl := Option.some.inj (hfound.symm.trans hp)
  exact h ⟨⟨found, findProposal_of_index hindex hp, hr⟩, row, hm, hid, hrevision⟩

/-- A statement about a revision that the row is not at. -/
theorem looks_transition {next : State} (h : ∀ row ∈ w.db.rows, row.id = id →
    row.revision ≠ (revision : Int)) :
    Looks A fs (ofJournal (Journal.transition id revision next)) (fun _ => False) s w := by
  constructor
  intro _
  refine (wpS_embed _ _).mpr ((wpE_inPart _ _).mpr ?_)
  apply Journal.transition_wp (.refl w) (fun _ => ⟨rfl, .refl w⟩)
  intro row source t _ hfind hrevision
  obtain ⟨hm, hid⟩ := Database.find_eq_some.mp hfind
  exact absurd hrevision (h row hm hid)

theorem looks_reviseProposal {token : Bytes} (h : ∀ row ∈ w.db.rows, row.id = id →
    row.revision ≠ (revision : Int)) :
    Looks A fs (ofJournal (Journal.reviseProposal id revision token)) (fun _ => False) s w := by
  constructor
  intro _
  refine (wpS_embed _ _).mpr ((wpE_inPart _ _).mpr ?_)
  apply Journal.reviseProposal_wp (.refl w) (fun _ => ⟨rfl, .refl w⟩)
  intro row t _ hfind hrevision
  obtain ⟨hm, hid⟩ := Database.find_eq_some.mp hfind
  exact absurd hrevision (h row hm hid)

theorem looks_moveWarning {source destination : Bytes} :
    Looks A fs (moveWarning? source destination) (fun _ => True) s w := by
  unfold moveWarning?
  apply looks_bind (R := fun _ => Quiet A → True)
  · apply looks_files
    intro hq
    unfold moveWarning
    refine (wpE_observe _).mpr ((wpE_bind _ _).mpr (identity_wp hq rfl ?_ ?_))
    · intro i inode content _
      refine (wpE_bind _ _).mpr ((wpE_orFail _ _).mpr ⟨fun _ => ⟨rfl, trivial⟩, fun parent _ => ?_⟩)
      refine (wpE_bind _ _).mpr ((wpE_recast _ _).mpr (look_wp hq rfl ?_ ?_ ?_))
      · exact fun _ _ _ _ => ⟨rfl, trivial⟩
      · exact fun _ _ => (wpE_pure _).mpr ⟨rfl, trivial⟩
      · exact fun _ _ => ⟨rfl, trivial⟩
    · exact fun _ _ => ⟨rfl, trivial⟩
  · exact fun _ _ _ => looks_pure trivial

/-! ## The requests -/

theorem looks_ignore (h : Stale s w id revision) :
    Looks A fs (ignore id revision) (fun _ => False) s w := by
  unfold ignore
  apply looks_then looks_get
  rintro _ w₁ hdb₁ rfl
  apply looks_then looks_check
  intro index w₂ hdb₂ hindex
  obtain ⟨p, hp, -⟩ := proposalIndex_eq_ok hindex
  apply looks_never
  exact looks_transition (hdb₂ ▸ hdb₁ ▸ h.not_both hindex hp)

theorem looks_chooseDestination {rootId : Uuid} {directory : String} (h : Stale s w id revision) :
    Looks A fs (chooseDestination id revision rootId directory) (fun _ => False) s w := by
  unfold chooseDestination
  apply looks_then looks_check
  intro _ w₁ hdb₁ _
  apply looks_then looks_get
  rintro _ w₂ hdb₂ rfl
  apply looks_then looks_orFail
  intro root w₃ hdb₃ _
  apply looks_then looks_requireDirectory
  intro _ w₄ hdb₄ _
  apply looks_then looks_check
  intro index w₅ hdb₅ hindex
  apply looks_then looks_proposalAt
  intro p w₆ hdb₆ hp
  apply looks_then looks_check
  intro relative w₇ hdb₇ _
  apply looks_then looks_orFail
  intro sourceName w₈ hdb₈ _
  apply looks_then looks_check
  intro sourcePath w₉ hdb₉ _
  apply looks_then looks_moveWarning
  intro warning w' hdb _
  have hdb : w'.db = w.db := by
    rw [hdb, hdb₉, hdb₈, hdb₇, hdb₆, hdb₅, hdb₄, hdb₃, hdb₂, hdb₁]
  apply looks_never
  exact looks_reviseProposal (hdb ▸ h.not_both hindex hp)

theorem looks_renameProposal {name : String} (h : Stale s w id revision) :
    Looks A fs (renameProposal id revision name) (fun _ => False) s w := by
  unfold renameProposal
  apply looks_then looks_failIf
  intro _ w₁ hdb₁ _
  apply looks_then looks_orFail
  intro fileName w₂ hdb₂ _
  apply looks_then looks_get
  rintro _ w₃ hdb₃ rfl
  apply looks_then looks_check
  intro index w₄ hdb₄ hindex
  apply looks_then looks_proposalAt
  intro p w₅ hdb₅ hp
  apply looks_then looks_orFail
  intro choice w₆ hdb₆ _
  apply looks_then looks_orFail
  intro root w' hdb _
  have hdb : w'.db = w.db := by rw [hdb, hdb₆, hdb₅, hdb₄, hdb₃, hdb₂, hdb₁]
  apply looks_never
  exact looks_reviseProposal (hdb ▸ h.not_both hindex hp)

theorem looks_approve (h : Stale s w id revision) :
    Looks A fs (approve P id revision) (fun _ => False) s w := by
  unfold approve
  apply looks_then (approveChecks_looks id revision)
  rintro ⟨o, verifiedFd⟩ w' hdb ⟨haim, -⟩
  dsimp only
  rw [approveMove_eq]
  apply looks_never
  exact looks_transition (hdb ▸ h.not_both haim.index haim.found)

theorem looks_undo (h : Stale s w id revision) :
    Looks A fs (undo P id revision) (fun _ => False) s w := by
  unfold undo
  apply looks_then (undoChecks_looks id revision)
  rintro ⟨o, relative⟩ w' hdb ⟨haim, -⟩
  dsimp only
  rw [undoMove_eq]
  apply looks_never
  exact looks_transition (hdb ▸ h.not_both haim.index haim.found)

/-! ## A folder -/

/-- A folder that cannot be enrolled. -/
theorem looks_addRoot {folder : Bytes} (hA : Quiet A) (hnot : ¬ Enrollable s.state fs folder) :
    Looks A fs (addRoot P folder false true) (fun _ => False) s w := by
  unfold addRoot
  apply looks_bind looks_get
  rintro _ w₁ rfl
  apply looks_bind looks_failIf
  intro _ w₂ hroom
  apply looks_bind looks_requireDirectory
  intro _ w₃ hdirectory
  apply looks_bind looks_look
  intro canonical w₄ hcanonical
  apply looks_bind looks_orFail
  intro display w₅ hdisplay
  apply looks_bind looks_failIf
  intro _ w₆ hfresh
  apply looks_bind looks_openRoot
  intro fd w₇ hopen
  rw [not_or, not_le] at hroom
  simp only [List.any_eq_true, decide_eq_true_eq, not_exists, not_and] at hfresh
  refine absurd ?_ hnot
  exact ⟨hroom.1, hdirectory hA, canonical, display, fd, hcanonical hA, hdisplay, hfresh, hopen hA⟩

theorem candidates_nil {state : PersistentState} {folder : Bytes}
    (h : (state.candidates folder).head? = none) : ∀ root ∈ state.roots, root.destination = true →
      Path.startsWith folder (bytes root.path) = false := by
  intro root hm hd
  rw [List.head?_eq_none_iff] at h
  by_contra hstarts
  have hmem : root ∈ state.candidates folder := by
    unfold PersistentState.candidates
    rw [List.mem_insertionSort, List.mem_filter]
    exact ⟨hm, by simp [hd, hstarts]⟩
  rw [h] at hmem
  cases hmem

theorem looks_chooseDestinationPath {folder : Bytes} (hA : Quiet A) (h : Stale s w id revision)
    (hnot : ¬ Enlists s.state fs folder) :
    Looks A fs (chooseDestinationPath P id revision folder) (fun _ => False) s w := by
  unfold chooseDestinationPath
  apply looks_then looks_requireDirectory
  intro _ w₁ hdb₁ hdirectory
  apply looks_then looks_look
  intro canonical w₂ hdb₂ hcanonical
  apply looks_then looks_get
  rintro _ w₃ hdb₃ rfl
  apply looks_then (R := fun _ => True)
  · split
    · exact looks_pure trivial
    · next hnone =>
      refine (looks_addRoot hA fun henrol => hnot ?_).mono fun _ h => h.elim
      exact ⟨hdirectory hA, canonical, hcanonical hA, candidates_nil hnone, henrol⟩
  intro root w₄ hdb₄ _
  apply looks_then looks_orFail
  intro relative w₅ hdb₅ _
  apply looks_then (R := fun _ => True)
  · split
    · exact looks_pure trivial
    · exact looks_orFail.mono fun _ _ => trivial
  intro directory w' hdb _
  have hdb : w'.db = w.db := by rw [hdb, hdb₅, hdb₄, hdb₃, hdb₂, hdb₁]
  apply looks_chooseDestination
  unfold Stale
  rw [hdb]
  exact h

/-! ## An enrolment -/

section
variable {Q : α → Service → World → Prop} {E : ServiceError → Service → World → Prop}

/-- A look in an environment where every call succeeds. -/
theorem look_found {g : FileSystem → Except Errno α} {a : α} (hA : Faultless A)
    (hg : g w.fs = .ok a) (hQ : Q a s w) :
    wpS A (ofIo (look g)) Q E (fun _ => True) s w := by
  refine (wpS_embed _ _).mpr ((wpE_inPart _ _).mpr
    (look_wp (fun t ht => (hA t ht).alone) trivial ?_ ?_ ?_))
  · intro t e ht hfault
    rw [(hA t ht).2] at hfault
    cases hfault
  · intro b hb
    obtain rfl := Except.ok.inj (hg.symm.trans hb)
    exact hQ
  · exact fun e he => absurd (hg.symm.trans he) nofun

theorem openRoot_found {folder : Bytes} {fd : Fd} {Q : Fd → Service → World → Prop}
    (hA : Faultless A) (hfd : w.fs.openDirectory folder = .ok fd) (hQ : Q fd s w) :
    wpS A (ofFs (openRoot folder)) Q E (fun _ => True) s w := by
  refine (wpS_embed _ _).mpr ((wpE_inPart _ _).mpr ((wpE_recast _ _).mpr
    (look_wp (fun t ht => (hA t ht).alone) trivial ?_ ?_ ?_)))
  · intro t e ht hfault
    rw [(hA t ht).2] at hfault
    cases hfault
  · intro b hb
    obtain rfl := Except.ok.inj (hfd.symm.trans hb)
    exact hQ
  · exact fun e he => absurd (hfd.symm.trans he) nofun

theorem requireDirectory_found {path : Bytes} {Q : Unit → Service → World → Prop}
    (hA : Faultless A) (hd : DirectoryAt w.fs path) (hQ : Q () s w) :
    wpS A (requireDirectory path) Q E (fun _ => True) s w := by
  obtain ⟨i, inode, hstat, hentries⟩ := hd
  unfold requireDirectory
  refine (wpS_bind _ _).mpr (look_found hA hstat ((wpS_failIf _ _).mpr ⟨?_, fun _ => hQ⟩))
  intro hnone
  rw [hentries] at hnone
  cases hnone

end

/-- The new root is there, whatever becomes of the request. -/
theorem chooseDestinationPath_enlists {folder : Bytes} (hA : Faultless A)
    (h : Stale s w id revision) (he : Enlists s.state w.fs folder) :
    wpS A (chooseDestinationPath P id revision folder) (fun _ _ _ => False)
      (fun _ s' _ => ∃ root, s'.state.roots = s.state.roots ++ [root]) (fun _ => True) s w := by
  obtain ⟨hdirectory, canonical, hcanonical, houtside, hroom, hdirectory', canonical', display, fd,
    hcanonical', hdisplay, hfresh, hopen⟩ := he
  have hnone : (s.state.candidates canonical).head? = none := by
    cases hhead : (s.state.candidates canonical).head? with
    | none => rfl
    | some root =>
      have hm := List.mem_of_mem_head? hhead
      unfold PersistentState.candidates at hm
      rw [List.mem_insertionSort, List.mem_filter, Bool.and_eq_true] at hm
      have := houtside root hm.1 hm.2.1
      rw [hm.2.2] at this
      cases this
  unfold chooseDestinationPath
  refine (wpS_bind _ _).mpr (requireDirectory_found hA hdirectory ?_)
  refine (wpS_bind _ _).mpr (look_found hA hcanonical ?_)
  rw [wpS_bind, wpS_getState, wpS_bind, hnone]
  dsimp only
  unfold addRoot
  rw [wpS_bind, wpS_getState, wpS_bind, wpS_failIf]
  refine ⟨fun hfull => ?_, fun _ => ?_⟩
  · rcases hfull with hfull | hfull
    · omega
    · cases hfull.2
  refine (wpS_bind _ _).mpr (requireDirectory_found hA hdirectory' ?_)
  refine (wpS_bind _ _).mpr (look_found hA hcanonical' ?_)
  rw [wpS_bind, hdisplay, wpS_orFail]
  refine ⟨nofun, fun shown hshown => ?_⟩
  obtain rfl := Option.some.inj hshown
  rw [wpS_bind, wpS_failIf]
  refine ⟨fun hany => ?_, fun _ => ?_⟩
  · obtain ⟨root, hm, hpath⟩ := List.any_eq_true.mp hany
    exact absurd (of_decide_eq_true hpath) (hfresh root hm)
  refine (wpS_bind _ _).mpr (openRoot_found hA hopen ?_)
  refine (wpS_bind _ _).mpr (draw_wp trivial ?_)
  rw [wpS_bind, wpS_modifyState, wpS_bind]
  -- whatever happens from here on, the root stays
  refine wpS_mono save_wp ?_ ?_ fun _ _ => trivial
  · rintro _ s₁ w₁ ⟨rfl, hsaved⟩
    have hdb : w₁.db = w.db := hsaved.db
    rw [wpS_pure]
    refine wpS_mono (Looks.wp (R := fun _ => False) ?_ fun _ => rfl) ?_ ?_ fun _ _ => trivial
    · apply looks_then looks_orFail
      intro relative w₂ hdb₂ _
      apply looks_then (R := fun _ => True)
      · split
        · exact looks_pure trivial
        · exact looks_orFail.mono fun _ _ => trivial
      intro directory w₃ hdb₃ _
      apply looks_chooseDestination
      unfold Stale
      rw [hdb₃, hdb₂, hdb]
      exact h
    · exact fun _ _ _ hfalse => hfalse.2.2
    · rintro _ s' w' ⟨rfl, -⟩
      exact ⟨_, rfl⟩
  · rintro _ s₁ w₁ ⟨rfl, -⟩
    exact ⟨_, rfl⟩

/-! ## What a stale request leaves -/

/-- The request is refused, and everything is as it was. -/
def Unchanged (P : Platform) (call : Call) (s : Service) (w : World) : Prop :=
  ∀ ticks r s' w', (∀ t ∈ ticks, t.Alone) →
    ((call.perform P).start s).after ticks w = (.done (r, s'), w') →
    r.isOk = false ∧ s'.state = s.state ∧ w'.db = w.db ∧ w'.stateJson = w.stateJson ∧ w'.fs = w.fs

theorem unchanged_of_looks {call : Call}
    (h : Looks Tick.Alone w.fs (call.perform P) (fun _ => False) s w) : Unchanged P call s w := by
  intro ticks r s' w' halone hafter
  have hholds := Prog.wp_after (h.wp fun _ => rfl) ticks halone
  rw [hafter] at hholds
  cases r with
  | ok a => exact hholds.2.2.elim
  | error e =>
    obtain ⟨rfl, hu⟩ := hholds
    exact ⟨rfl, rfl, hu.db, hu.stateJson, hu.fs fun _ ht => ht⟩

/-- **A stale request changes nothing exactly where it enrols no folder.** -/
theorem stale_changes_nothing {call : Call} (hcall : call.presents = some (id, revision))
    (h : Stale s w id revision) : Unchanged P call s w ↔
      ∀ folder, call = .chooseDestinationPath id revision folder →
        ¬ Enlists s.state w.fs folder := by
  have hA : Quiet Tick.Alone := fun _ ht => ht
  constructor
  · rintro hunchanged folder rfl henlists
    have hwp : wpS Tick.Sound (Call.perform P (.chooseDestinationPath id revision folder))
        (fun _ _ _ => False) (fun _ s' _ => ∃ root, s'.state.roots = s.state.roots ++ [root])
        (fun _ => True) s w :=
      (wpS_bind _ _).mpr (chooseDestinationPath_enlists (fun _ ht => ht) h henlists)
    obtain ⟨ticks, ⟨r, s'⟩, w', hticks, hafter, hend⟩ :=
      Prog.wp_finish (c := Tick.quiet 0) (show Tick.Sound (Tick.quiet 0) from ⟨rfl, rfl⟩) hwp
    obtain ⟨-, hstate, -⟩ := hunchanged ticks r s' w' (fun t ht => (hticks t ht).alone) hafter
    cases r with
    | ok a => exact hend
    | error e =>
      obtain ⟨root, hroots⟩ := hend
      rw [hstate] at hroots
      have := congrArg List.length hroots
      rw [List.length_append, List.length_singleton] at this
      omega
  · intro hnot
    apply unchanged_of_looks
    cases call with
    | chooseDestination id revision rootId directory =>
      obtain ⟨rfl, rfl⟩ := Prod.mk.inj (Option.some.inj hcall)
      exact looks_never (looks_chooseDestination h)
    | chooseDestinationPath id revision folder =>
      obtain ⟨rfl, rfl⟩ := Prod.mk.inj (Option.some.inj hcall)
      exact looks_never (looks_chooseDestinationPath hA h (hnot folder rfl))
    | renameProposal id revision name =>
      obtain ⟨rfl, rfl⟩ := Prod.mk.inj (Option.some.inj hcall)
      exact looks_never (looks_renameProposal h)
    | ignore id revision =>
      obtain ⟨rfl, rfl⟩ := Prod.mk.inj (Option.some.inj hcall)
      exact looks_never (looks_ignore h)
    | approve id revision =>
      obtain ⟨rfl, rfl⟩ := Prod.mk.inj (Option.some.inj hcall)
      exact looks_never (looks_approve h)
    | undo id revision =>
      obtain ⟨rfl, rfl⟩ := Prod.mk.inj (Option.some.inj hcall)
      exact looks_never (looks_undo h)
    | _ => cases hcall

end

/-! ## Runs -/

/-- The journal is one revision ahead, and the folder lies in a destination. -/
theorem stale_changes_nothing_inside : Unchanged .sample (.chooseDestinationPath ⟨2⟩ 1 (bytes "/d"))
    (.fresh (sampleState [sampleProposal 1 .proposed]))
    (sampleWorld sampleFiles (sampleRow 2 .proposed) (sampleState [])) := by
  refine (stale_changes_nothing rfl ?_).mpr ?_
  · rintro ⟨-, row, hm, -, hrevision⟩
    rw [List.mem_singleton.mp hm] at hrevision
    exact absurd hrevision (by decide)
  · rintro folder hcall ⟨-, canonical, hcanonical, houtside, -⟩
    cases hcall
    have hd : sampleFiles.canonicalize (bytes "/d") = .ok (bytes "/d") := by decide +kernel
    obtain rfl := Except.ok.inj (hcanonical.symm.trans hd)
    exact absurd (houtside ⟨⟨1⟩, "/d", false, true⟩ (by decide) rfl) (by decide)

/-- No proposal has this id, and the folder becomes a destination. -/
theorem stale_enrols : ∃ (events : List Event) (m m' : Machine) (s s' : Service),
    Run .sample (Machine.initial sampleFiles) events m ∧
      Step .sample m (.answered (.chooseDestinationPath ⟨9⟩ 1 (bytes "/x")) false) m' ∧
      m.service = some s ∧ m'.service = some s' ∧ Stale s m.world ⟨9⟩ 1 ∧
      s.state.roots.length = 2 ∧ s'.state.roots.length = 3 := by
  obtain ⟨events, m, m', hrun, hstep, htest⟩ := exists_refused (P := .sample)
    (m := Machine.initial sampleFiles) (Command.enrol (bytes "/d"))
    (.chooseDestinationPath ⟨9⟩ 1 (bytes "/x")) (quietAt 3)
    (fun m m' => m.service.any fun s => (s.state.findProposal ⟨9⟩).isNone &&
      s.state.roots.length = 2 && m'.service.any fun s' => s'.state.roots.length = 3)
    (by decide +kernel)
  obtain ⟨s, hs, htest⟩ := (Option.any_eq_true _ _).mp htest
  simp only [Bool.and_eq_true, Option.isNone_iff_eq_none, decide_eq_true_eq] at htest
  obtain ⟨⟨hnone, hroots⟩, htest⟩ := htest
  obtain ⟨s', hs', hroots'⟩ := (Option.any_eq_true _ _).mp htest
  refine ⟨events, m, m', s, s', hrun, hstep, hs, hs', ?_, hroots, of_decide_eq_true hroots'⟩
  rintro ⟨⟨p, hp, -⟩, -⟩
  rw [hnone] at hp
  cases hp

end SortingHat
