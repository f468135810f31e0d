import SortingHat.Service.Conduct
import SortingHat.Service.Survey
import SortingHat.Text.Measure

/-!
# A scan at its limits

A scan can end at five limits: of the queue, of the journal, and three of the walk.
Only the first pauses the service.

* `scanRoots_goes`, `scanOnce_ends`: what a scan has gone through, and how it ends;
* `SafelyPaused`: what should be left behind;
* `QueueFirst`: the queue is full before a tree or the journal ends the scan;
* `exhaustion_pauses_safely`: when it pauses safely.
-/

namespace SortingHat
open Posix Effect Text
open Journal (Row Database State)

/-- `error_state` of the daemon: what the client is told of an error. -/
def errorState : ServiceError → String
  | .collision => "conflict"
  | .revisionConflict => "stale_revision"
  | .limit => "paused_limit"
  | .io _ | .fs _ => "filesystem_error"
  | _ => "rejected"

section
variable {α : Type} {A : Tick → Prop} {P : Platform} {s : Service} {w : World}

/-! ## The walk -/

theorem addEntries_error {relative : Bytes} {depth : Nat} {entries : List (Bytes × FileType)}
    {pending : List (Bytes × Nat)} {result : List Bytes} {e : ServiceError}
    (h : addEntries relative depth entries pending result = .error e) : e = .limit := by
  induction entries generalizing pending result with
  | nil => cases h
  | cons entry entries ih =>
    obtain ⟨name, kind⟩ := entry
    unfold addEntries at h
    cases kind with
    | file =>
      dsimp only at h
      split at h
      · exact (Except.error.inj h).symm
      · exact ih h
    | _ => exact ih h

/-- **A walk among files that do not change** returns what can be told from them, and ends
at a limit only where they are too many or too deep. -/
theorem walkPending_walks (hA : Quiet A) (root : Bytes) (directories : Nat)
    (pending : List (Bytes × Nat)) (result : List Bytes) :
    wpS A (walkPending root directories pending result)
      (fun files s' w' => s' = s ∧ w' = w ∧
        walked w.fs root directories pending result = .ok files)
      (fun e s' w' => s' = s ∧ w' = w ∧ (∀ j, e ≠ .journal j) ∧
        (e = .limit → walked w.fs root directories pending result = .error .limit))
      (fun _ => True) s w := by
  have hlimit : ∀ j, ServiceError.limit ≠ .journal j := by
    intro j h
    cases h
  have hio : ∀ e j, ServiceError.io e ≠ .journal j := by
    intro e j h
    cases h
  have hother : ∀ e, ServiceError.io e ≠ .limit := by
    intro e h
    cases h
  induction directories generalizing pending result with
  | zero =>
    cases pending with
    | nil => exact ⟨rfl, rfl, rfl⟩
    | cons entry pending => exact ⟨rfl, rfl, hlimit, fun _ => rfl⟩
  | succ directories ih =>
    cases pending with
    | nil => exact ⟨rfl, rfl, rfl⟩
    | cons entry pending =>
      obtain ⟨relative, depth⟩ := entry
      unfold walkPending walked
      refine (wpS_bind _ _).mpr ((wpS_failIf _ _).mpr ⟨fun hdeep => ?_, fun hdeep => ?_⟩)
      · exact ⟨rfl, rfl, hlimit, fun _ => if_pos hdeep⟩
      rw [if_neg hdeep]
      refine (wpS_bind _ _).mpr ((wpS_embed _ _).mpr ((wpE_inPart _ _).mpr
        (look_wp hA trivial ?_ ?_ ?_)))
      · exact fun _ _ _ _ => ⟨rfl, rfl, hio _, fun he => absurd he (hother _)⟩
      · intro entries hentries
        change (w.fs.readDir (Path.join root relative) >>= fun listed =>
          pure (listed.map fun e => (e.1, fileType (w.fs.node? e.2)))) = .ok entries at hentries
        cases hread : w.fs.readDir (Path.join root relative) with
        | error e =>
          rw [hread] at hentries
          cases hentries
        | ok listed =>
          rw [hread] at hentries
          obtain rfl := Except.ok.inj hentries
          dsimp only
          cases hadd : addEntries relative depth
              (listed.map fun e => (e.1, fileType (w.fs.node? e.2))) pending result with
          | error e =>
            obtain rfl := addEntries_error hadd
            exact ⟨rfl, rfl, hlimit, fun _ => rfl⟩
          | ok next => exact ih next.1 next.2
      · exact fun _ _ => ⟨rfl, rfl, hio _, fun he => absurd he (hother _)⟩

/-! ## The scan -/

/-- A scan from `s₀` and `w₀` has gone through the files `taken`, and has looked at them
when the clock read so. -/
structure Through (A : Tick → Prop) (s₀ : Service) (w₀ : World) (taken : List (Root × Bytes))
    (readings : List Int) (s : Service) (w : World) : Prop where
  clock : ∀ now ∈ readings, ∃ t, A t ∧ now = t.clockNs
  visited : Visited w₀.fs s₀.survey taken readings s.survey
  adds : Enqueues s₀ w₀ s w

/-- How a scan ends with an error, where it would come to the files `all`. -/
inductive Ending (A : Tick → Prop) (s₀ : Service) (w₀ : World) (all : List (Root × Bytes)) :
    ServiceError → Service → World → Prop where
  /-- The queue is full: at first, or when a file comes up. -/
  | queue {taken : List (Root × Bytes)} {readings : List Int} {s s' : Service} {w w' : World}
      (h : Through A s₀ w₀ taken readings s w) (hfull : maxProposals ≤ s.state.proposedCount)
      (hall : all = taken ∨ ∃ file rest, all = taken ++ file :: rest)
      (hnext : all = taken → maxProposals ≤ s₀.state.proposedCount)
      (hstate : s' = { s with state := { s.state with paused := true } })
      (hsaved : Saved A s' w w' ∨ maxStateBytes < s'.state.bodyLength) :
      Ending A s₀ w₀ all .limit s' w'
  /-- All files have come up; the next tree, or the state, is too large. -/
  | oversized {readings : List Int} {s : Service} {w w' : World}
      (h : Through A s₀ w₀ all readings s w) (hrunning : s₀.state.paused = false)
      (hroom : s₀.state.proposedCount < maxProposals) : Ending A s₀ w₀ all .limit s w'
  | journal {taken : List (Root × Bytes)} {readings : List Int} {s s' : Service} {w w' : World}
      (h : Through A s₀ w₀ taken readings s w) (hroom : s.state.proposedCount < maxProposals)
      (hstate : s'.state = s.state) (hactive : Journal.maxActive ≤ w'.db.activeCount) :
      Ending A s₀ w₀ all (.journal .limit) s' w'
  | other {e : ServiceError} {s : Service} {w : World} (hlimit : e ≠ .limit)
      (hjournal : e ≠ .journal .limit) : Ending A s₀ w₀ all e s w

/-- A call of which only the kind of its error is asked. -/
theorem io_wp {V : Type} {part : Prog.Part World V} {y : Fallible Tick V Errno α}
    {Q : α → Service → World → Prop} {C : ServiceError → Prop} (hC : ∀ e, C (.io e))
    (hQ : ∀ a w', Q a s w') : wpS A (embed ServiceError.io (inPart part y)) Q
      (fun e _ _ => C e) (fun _ => True) s w := by
  rw [wpS_embed, wpE_inPart]
  refine Prog.wp_trivial ?_ fun _ => trivial
  rintro (e | a) v
  · exact hC e
  · exact hQ a _

/-- A save that fails at a limit has too much to save. -/
theorem save_fails : wpS A save (fun _ s' w' => s' = s ∧ Saved A s w w')
    (fun e s' _ => s' = s ∧ (e = .limit → maxStateBytes < s.state.bodyLength) ∧
      ∀ j, e ≠ .journal j) (fun _ => True) s w := by
  have herrors : wpS A save (fun _ _ _ => True)
      (fun e _ _ => (e = .limit → maxStateBytes < s.state.bodyLength) ∧ ∀ j, e ≠ .journal j)
      (fun _ => True) s w := by
    unfold save
    rw [wpS_bind, wpS_getState, wpS_bind, wpS_failIf]
    refine ⟨fun hlong => ⟨fun _ => hlong, nofun⟩, fun _ => ?_⟩
    refine (wpS_bind _ _).mpr (io_wp (fun _ => ⟨nofun, nofun⟩) fun _ _ => ?_)
    refine (wpS_bind _ _).mpr (io_wp (fun _ => ⟨nofun, nofun⟩) fun _ _ => ?_)
    refine (wpS_bind _ _).mpr (io_wp (fun _ => ⟨nofun, nofun⟩) fun _ _ => ?_)
    refine (wpS_bind _ _).mpr (io_wp (fun _ => ⟨nofun, nofun⟩) fun _ _ => ?_)
    refine (wpS_bind _ _).mpr (io_wp (fun _ => ⟨nofun, nofun⟩) fun _ _ => ?_)
    exact io_wp (fun _ => ⟨nofun, nofun⟩) fun _ _ => trivial
  refine wpS_mono (wpS_and save_wp herrors) ?_ ?_ fun _ _ => trivial
  · exact fun _ _ _ h => h.1
  · exact fun _ _ _ h => ⟨h.1.1, h.2⟩

variable {s₀ : Service} {w₀ : World} {all taken : List (Root × Bytes)} {readings : List Int}

theorem stopIfFull_ends (h : Through A s₀ w₀ taken readings s w)
    (hall : all = taken ∨ ∃ file rest, all = taken ++ file :: rest)
    (hnext : all = taken → maxProposals ≤ s.state.proposedCount →
      maxProposals ≤ s₀.state.proposedCount) :
    wpS A stopIfFull (fun _ s' w' => s' = s ∧ w' = w ∧ s.state.proposedCount < maxProposals)
      (Ending A s₀ w₀ all) (fun _ => True) s w := by
  unfold stopIfFull
  rw [wpS_bind, wpS_getState]
  split
  · next hfull =>
    unfold pauseAtLimit
    rw [wpS_bind, wpS_modifyState, wpS_bind]
    refine wpS_mono save_fails ?_ ?_ fun _ h => h
    · rintro _ s' w' ⟨rfl, hsaved⟩
      exact .queue h hfull hall (fun he => hnext he hfull) rfl (.inl hsaved)
    · rintro e s' w' ⟨rfl, hlimit, hjournal⟩
      by_cases he : e = .limit
      · subst he
        exact .queue h hfull hall (fun he => hnext he hfull) rfl (.inr (hlimit rfl))
      · exact .other he (hjournal _)
  · next hroom => exact (wpS_pure _).mpr ⟨rfl, rfl, Nat.not_le.mp hroom⟩

/-- One file comes up. -/
theorem scanFile_goes (hA : Quiet A) {root : Root} {created : Nat} {relative : Bytes}
    (h : Through A s₀ w₀ taken readings s w)
    (hall : ∃ rest, all = taken ++ (root, relative) :: rest) :
    wpS A (scanFile P root created relative)
      (fun _ s' w' => ∃ readings, Through A s₀ w₀ (taken ++ [(root, relative)]) readings s' w')
      (Ending A s₀ w₀ all) (fun _ => True) s w := by
  obtain ⟨rest, rfl⟩ := hall
  have hmore : ¬ taken ++ (root, relative) :: rest = taken := by simp
  unfold scanFile
  refine (wpS_bind _ _).mpr (wpS_mono (stopIfFull_ends h (.inr ⟨_, rest, rfl⟩)
    fun he => absurd he hmore) ?_ (fun _ _ _ h => h) fun _ h => h)
  rintro _ s' w' ⟨rfl, rfl, hroom⟩
  refine (wpS_bind _ _).mpr (wpS_mono (consider_visits hA) ?_ ?_ fun _ h => h)
  · rintro _ s'' w'' hcounted
    obtain ⟨read, hclock, hvisit⟩ := hcounted.visits
    rw [h.adds.fs] at hvisit
    refine (wpS_pure _).mpr ⟨readings ++ read, ?_, ?_, h.adds.trans hcounted.adds⟩
    · exact fun now hnow => (List.mem_append.mp hnow).elim (h.clock now) (hclock now)
    · exact h.visited.snoc (by rw [awaiting_length]; exact hroom) hvisit
  · intro e s'' w'' hrejected
    by_cases he : e = .journal .limit
    · subst he
      exact .journal h hroom hrejected.state (hrejected.journal rfl)
    · exact .other hrejected.limit he

theorem scanFiles_goes (hA : Quiet A) {root : Root} (files : List Bytes) (created : Nat)
    (h : Through A s₀ w₀ taken readings s w)
    (hall : ∃ rest, all = taken ++ (files.map (fun relative => (root, relative)) ++ rest)) :
    wpS A (files.foldlM (scanFile P root) created) (fun _ s' w' => ∃ readings,
        Through A s₀ w₀ (taken ++ files.map fun relative => (root, relative)) readings s' w')
      (Ending A s₀ w₀ all) (fun _ => True) s w := by
  induction files generalizing created taken readings s w with
  | nil =>
    rw [List.map_nil, List.append_nil]
    exact (wpS_pure _).mpr ⟨readings, h⟩
  | cons relative files ih =>
    obtain ⟨rest, hall⟩ := hall
    rw [List.foldlM_cons, wpS_bind]
    refine wpS_mono (scanFile_goes hA h ⟨_, hall⟩) ?_ (fun _ _ _ h => h) fun _ h => h
    rintro created s' w' ⟨readings', h'⟩
    have happend : taken ++ (relative :: files).map (fun relative => (root, relative)) =
        taken ++ [(root, relative)] ++ files.map fun relative => (root, relative) := by simp
    rw [happend]
    exact ih created h' ⟨rest, by rw [hall]; simp⟩

/-- **One root after the other**, until one cannot be walked. -/
theorem scanRoots_goes (hA : Quiet A) (roots : List Root) (created : Nat)
    (hrunning : s₀.state.paused = false) (hroom : s₀.state.proposedCount < maxProposals)
    (h : Through A s₀ w₀ taken readings s w) (hall : all = taken ++ filesBefore w₀.fs roots) :
    wpS A (roots.foldlM (scanRoot P) created)
      (fun _ s' w' => ∃ readings, Through A s₀ w₀ all readings s' w')
      (Ending A s₀ w₀ all) (fun _ => True) s w := by
  induction roots generalizing created taken readings s w with
  | nil =>
    rw [hall, filesBefore, List.append_nil]
    exact (wpS_pure _).mpr ⟨readings, h⟩
  | cons root roots ih =>
    rw [List.foldlM_cons, wpS_bind]
    unfold scanRoot boundedFiles
    refine (wpS_bind _ _).mpr (wpS_mono (walkPending_walks hA _ _ _ _) ?_ ?_ fun _ h => h)
    · rintro files s' w' ⟨rfl, rfl, hwalked⟩
      rw [h.adds.fs] at hwalked
      have hfiles : filesBelow w₀.fs root = .ok files := hwalked
      rw [filesBefore, hfiles] at hall
      refine wpS_mono (scanFiles_goes hA files created h ⟨_, hall⟩) ?_ (fun _ _ _ h => h)
        fun _ h => h
      rintro created s'' w'' ⟨readings', h'⟩
      exact ih created h' (by rw [hall, List.append_assoc])
    · rintro e s' w' ⟨rfl, rfl, hjournal, hlimit⟩
      by_cases he : e = .limit
      · subst he
        have hwalked := hlimit rfl
        rw [h.adds.fs] at hwalked
        have hfiles : filesBelow w₀.fs root = .error .limit := hwalked
        rw [filesBefore, hfiles, List.append_nil] at hall
        exact .oversized (hall ▸ h) hrunning hroom
      · exact .other he (hjournal _)

/-- **How a scan ends with an error.** -/
theorem scanOnce_ends (hA : Quiet A) : wpS A (scanOnce P) (fun _ _ _ => True)
    (Ending A s w (filesBefore w.fs (s.state.roots.filter Root.watched))) (fun _ => True) s w := by
  have hnone : Through A s w [] [] s w := ⟨nofun, .nil, .refl⟩
  unfold scanOnce
  rw [wpS_bind, wpS_getState]
  split
  · exact (wpS_pure _).mpr trivial
  next hrunning =>
  have hrunning : s.state.paused = false := Bool.eq_false_iff.mpr hrunning
  refine (wpS_bind _ _).mpr (wpS_mono (stopIfFull_ends hnone ?_ fun _ hfull => hfull) ?_
    (fun _ _ _ h => h) fun _ h => h)
  · cases filesBefore w.fs (s.state.roots.filter Root.watched) with
    | nil => exact .inl rfl
    | cons file rest => exact .inr ⟨file, rest, rfl⟩
  rintro _ s' w' ⟨rfl, rfl, hroom⟩
  refine (wpS_bind _ _).mpr (wpS_mono (scanRoots_goes hA _ 0 hrunning hroom hnone rfl) ?_
    (fun _ _ _ h => h) fun _ h => h)
  rintro created s₁ w₁ ⟨readings, h⟩
  rw [wpS_bind]
  split
  · refine wpS_mono save_fails (fun _ _ _ _ => trivial) ?_ fun _ h => h
    rintro e s₂ w₂ ⟨rfl, -, hjournal⟩
    by_cases he : e = .limit
    · subst he
      exact .oversized h hrunning hroom
    · exact .other he (hjournal _)
  · exact (wpS_pure _).mpr trivial

/-! ## The two counts -/

/-- A scan adds to both counts alike, and lists what it has made. -/
structure Tallied (s₀ : Service) (w₀ : World) (s : Service) (w : World) : Prop where
  grown : s₀.state.proposedCount ≤ s.state.proposedCount
  count : w.db.activeCount + s₀.state.proposedCount = w₀.db.activeCount + s.state.proposedCount
  bound : s.state.proposedCount = s₀.state.proposedCount ∨
    w.db.activeCount ≤ Journal.maxActive
  listed : ∀ row ∈ w.db.rows, row ∈ w₀.db.rows ∨ ∃ p ∈ s.state.proposals, p.id = row.id

theorem Deed.tallied {A : Tick → Prop} {lossy : Bool} {s' : Service} {w' : World}
    (h : Deed P A (some .scanOnce) lossy s w s' w') (ht : Tallied s₀ w₀ s w) :
    Tallied s₀ w₀ s' w' := by
  have hidle : ∀ {id}, ¬ Acts (some .scanOnce) id := by
    rintro id ⟨call, revision, hcall, hp⟩
    cases hcall
    cases hp
  cases h with
  | files | sampled | drew | paused | advised | installed =>
    exact ⟨ht.grown, ht.count, ht.bound, ht.listed⟩
  | rooted _ _ _ _ hcaller => cases hcaller
  | unrooted _ _ hcaller => cases hcaller
  | ruled _ _ _ _ _ _ _ hcaller => cases hcaller
  | settled _ _ _ _ _ _ hcaller => cases hcaller
  | warned _ _ hcaller => cases hcaller
  | pruned hr | aged hr | trimmed hr => cases hr
  | redirected _ _ _ _ _ _ _ _ _ hacts => exact absurd hacts hidle
  | renamed _ _ _ _ _ _ _ _ hcaller => cases hcaller
  | approved _ _ _ _ hacts | moved _ _ _ _ _ hacts | finished _ _ _ _ _ hacts
  | hashed _ hacts => exact absurd hacts hidle
  | lost _ _ _ hcaller =>
    rcases hcaller with hcaller | hacts
    · cases hcaller
    · exact absurd hacts hidle
  | @proposed p row db hb hi =>
    have hrows := (Database.insert_eq_ok hi).2.1
    have hactive : row.active = true := by
      rw [Row.active, Journal.Row.terminal_of_state hb.row_state]
      rfl
    have hcount : db.activeCount = w.db.activeCount + 1 := by
      unfold Database.activeCount
      rw [hrows, List.countP_append, List.countP_singleton, if_pos hactive]
    have hproposed : PersistentState.proposedCount
        { s.state with proposals := s.state.proposals ++ [p] } = s.state.proposedCount + 1 := by
      unfold PersistentState.proposedCount
      rw [List.countP_append, List.countP_singleton, if_pos (decide_eq_true hb.status)]
    constructor
    · have := ht.grown
      change _ ≤ PersistentState.proposedCount
        { s.state with proposals := s.state.proposals ++ [p] }
      omega
    · have := ht.count
      change db.activeCount + _ = _ + PersistentState.proposedCount
        { s.state with proposals := s.state.proposals ++ [p] }
      omega
    · right
      change db.activeCount ≤ _
      have := hb.active
      omega
    · intro other ho
      change other ∈ db.rows at ho
      rw [hrows] at ho
      rcases List.mem_append.mp ho with ho | ho
      · rcases ht.listed other ho with hold | ⟨q, hq, hid⟩
        · exact .inl hold
        · exact .inr ⟨q, List.mem_append_left _ hq, hid⟩
      · obtain rfl := List.mem_singleton.mp ho
        exact .inr ⟨p, List.mem_append_right _ (List.mem_singleton_self p), hb.row_id.symm⟩

/-! ## Pausing safely -/

/-- What a scan that was stopped by a limit should leave behind: it is paused in memory
and on disk, in a file that an open accepts, says so, and everything it has made is on
disk. -/
structure SafelyPaused (w₀ : World) (e : ServiceError) (s : Service) (w : World) : Prop where
  paused : s.state.paused = true
  saved : w.stateJson = some ⟨s.state.bodyLength, some s.state⟩
  fits : s.state.bodyLength ≤ maxStateBytes
  reported : errorState e = "paused_limit"
  listed : ∀ row ∈ w.db.rows, row ∈ w₀.db.rows ∨ ∃ p ∈ s.state.proposals, p.id = row.id

/-- The files that a scan comes to before a tree that cannot be walked. -/
def Service.reach (s : Service) (w : World) : List (Root × Bytes) :=
  filesBefore w.fs (s.state.roots.filter Root.watched)

/-- The queue is what is full: from the start; or no more entries are active than are
proposed, so that it is full before the journal, and the files before the first tree that
cannot be walked fill it before the last of them. -/
def QueueFirst (s : Service) (w : World) (readings : List Int) : Prop :=
  maxProposals ≤ s.state.proposedCount ∨ w.db.activeCount ≤ s.state.proposedCount ∧
    s.survey.fills w.fs (s.reach w) readings = true

/-- What is paused and has these proposals as well fits into the file. -/
def Room (s : Service) (added : List Proposal) : Prop :=
  PersistentState.bodyLength
    { s.state with paused := true, proposals := s.state.proposals ++ added } ≤ maxStateBytes

section
variable {e : ServiceError} {s' : Service} {w' : World}

theorem Ending.pauses (h : Ending A s w (s.reach w) e s' w')
    (hlimit : e = .limit ∨ e = .journal .limit) (ht : Tallied s w s' w') :
    ∃ readings added, (∀ now ∈ readings, ∃ t, A t ∧ now = t.clockNs) ∧
      (e = .limit → ∃ taken, taken <+: s.reach w ∧
        s.survey.tour w.fs taken readings = (s'.survey, [])) ∧
      s'.state.proposals = s.state.proposals ++ added ∧
      (SafelyPaused w e s' w' ↔ QueueFirst s w readings ∧ Room s added) := by
  have hgrown := ht.grown
  have hcount := ht.count
  have hmax : Journal.maxActive = maxProposals := rfl
  cases h with
  | @queue taken readings s₁ _ w₁ _ h hfull hall hnext hstate hsaved =>
    obtain ⟨added, hadded⟩ := h.adds.state
    have htaken : taken <+: s.reach w := by
      rcases hall with he | ⟨file, rest, he⟩
      · exact he ▸ List.prefix_refl _
      · exact he ▸ List.prefix_append _ _
    have hstate' : s'.state =
        { s.state with paused := true, proposals := s.state.proposals ++ added } := by
      rw [hstate]
      dsimp only
      rw [hadded]
    refine ⟨readings, added, h.clock, fun _ => ⟨taken, htaken, ?_⟩, by rw [hstate'], ?_⟩
    · rw [h.visited.toured, hstate]
      rfl
    constructor
    · intro hsafe
      refine ⟨?_, ?_⟩
      · by_cases hstart : maxProposals ≤ s.state.proposedCount
        · exact .inl hstart
        have hsame : s'.state.proposedCount = s₁.state.proposedCount := by rw [hstate]; rfl
        refine .inr ⟨?_, ?_⟩
        · rcases ht.bound with hsame' | hbound <;> omega
        · rcases hall with he | ⟨file, rest, he⟩
          · exact absurd (hnext he) hstart
          · rw [he]
            exact h.visited.full (by rw [awaiting_length]; exact hfull)
      · unfold Room
        rw [← hstate']
        exact hsafe.fits
    · rintro ⟨-, hroom⟩
      unfold Room at hroom
      rw [← hstate'] at hroom
      rcases hsaved with hsaved | hlong
      · exact ⟨by rw [hstate'], hsaved.stateJson, hroom, rfl, ht.listed⟩
      · exact absurd hroom (Nat.not_le.mpr hlong)
  | @oversized readings _ w₁ _ h hrunning hroom =>
    obtain ⟨added, hadded⟩ := h.adds.state
    refine ⟨readings, added, h.clock, fun _ => ⟨_, List.prefix_refl _, h.visited.toured⟩,
      by rw [hadded], ?_⟩
    constructor
    · intro hsafe
      have hpaused := hsafe.paused
      rw [hadded] at hpaused
      exact absurd (hpaused.symm.trans hrunning) (by decide)
    · rintro ⟨hstart | ⟨-, hfills⟩, -⟩
      · exact absurd hstart (Nat.not_le.mpr hroom)
      · exact absurd (hfills.symm.trans h.visited.unfilled) (by decide)
  | @journal taken readings s₁ _ w₁ _ h hroom hstate hactive =>
    -- the journal is full before the queue is
    obtain ⟨added, hadded⟩ := h.adds.state
    refine ⟨readings, added, h.clock, nofun, by rw [hstate, hadded], ?_⟩
    rw [← hstate] at hroom
    constructor
    · exact fun hsafe => absurd hsafe.reported (by decide)
    · rintro ⟨hstart | ⟨hfew, -⟩, -⟩ <;> omega
  | other hnot hnot' => exact absurd hlimit (not_or.mpr ⟨hnot, hnot'⟩)

/-- **A scan that ends at a limit pauses safely exactly when the queue is what is full**,
and its file has room. The clock has read `readings` when files were looked at, and
`added` is what they have added to the queue. -/
theorem exhaustion_pauses_safely {ticks : List Tick} (hticks : ∀ t ∈ ticks, t.Alone)
    (hafter : ((scanOnce P).start s).after ticks w = (.done (.error e, s'), w'))
    (hlimit : e = .limit ∨ e = .journal .limit) :
    ∃ readings added, (∀ now ∈ readings, ∃ t ∈ ticks, now = t.clockNs) ∧
      (e = .limit → ∃ taken, taken <+: s.reach w ∧
        s.survey.tour w.fs taken readings = (s'.survey, [])) ∧
      s'.state.proposals = s.state.proposals ++ added ∧
      (SafelyPaused w e s' w' ↔ QueueFirst s w readings ∧ Room s added) := by
  have hends := Prog.wp_after (scanOnce_ends (P := P) (A := (· ∈ ticks)) (s := s) (w := w) hticks)
    ticks fun _ ht => ht
  rw [hafter] at hends
  have hdeeds := Prog.wp_after (tracks_scanOnce (P := P) (A := Tick.Alone) rfl
    (Deeds.refl (s := s) (w := w))).wp ticks hticks
  rw [hafter] at hdeeds
  have htally : Tallied s w s' w' := Deeds.keeps (fun _ _ _ _ ht hd => hd.tallied ht) hdeeds
    ⟨Nat.le_refl _, rfl, .inl rfl, fun _ hm => .inl hm⟩
  exact Ending.pauses hends hlimit htally

end

/-- One file is missing, the first has settled, and then the second comes up. -/
example : Survey.fills sampleFiles
    ⟨List.replicate 999 (⟨0⟩, ""), [],
      fun _ => ⟨(identityAt sampleFiles (bytes "/w/a")).map fun identity => (identity, 0)⟩⟩
    [(⟨⟨1⟩, "/w", true, false⟩, bytes "a"), (⟨⟨1⟩, "/w", true, false⟩, bytes "b")]
    [1000000000] = true := by
  decide +kernel

/-- Without a fault, a state that fits is saved. -/
theorem save_succeeds {Q : Unit → Service → World → Prop} {E : ServiceError → Service → World → Prop}
    (hfits : s.state.bodyLength ≤ maxStateBytes)
    (hQ : Q () s { w with stateJson := some ⟨s.state.bodyLength, some s.state⟩ }) :
    wpS Tick.Sound save Q E (fun _ => True) s w := by
  have htouch : ∀ {f : Unit → ServiceM Unit} {w : World},
      wpS Tick.Sound (f ()) Q E (fun _ => True) s w →
      wpS Tick.Sound (ofIo touch >>= f) Q E (fun _ => True) s w := by
    intro f w hf
    refine (wpS_bind _ _).mpr ((wpS_embed _ _).mpr ((wpE_inPart _ _).mpr
      (look_wp (fun _ ht => ht.alone) trivial ?_ (fun _ _ => hf) nofun)))
    exact fun t e ht hfault => absurd (ht.2.symm.trans hfault) nofun
  unfold save
  rw [wpS_bind, wpS_getState, wpS_bind, wpS_failIf]
  refine ⟨fun hlong => absurd hfits (Nat.not_le.mpr hlong), fun _ => ?_⟩
  refine htouch (htouch (htouch ?_))
  refine (wpS_bind _ _).mpr ((wpS_embed _ _).mpr ((wpE_inPart _ _).mpr
    (And.intro trivial fun t ht => ?_)))
  dsimp only [install]
  rw [ht.2]
  refine htouch ?_
  refine (wpS_embed _ _).mpr ((wpE_inPart _ _).mpr
    (look_wp (fun _ ht => ht.alone) trivial ?_ (fun _ _ => hQ) nofun))
  exact fun t e ht hfault => absurd (ht.2.symm.trans hfault) nofun

/-- A queue that is full from the start ends the scan at once. -/
theorem scanOnce_full (hrunning : s.state.paused = false)
    (hfull : maxProposals ≤ s.state.proposedCount)
    (hfits : PersistentState.bodyLength { s.state with paused := true } ≤ maxStateBytes) :
    wpS Tick.Sound (scanOnce P) (fun _ _ _ => False)
      (fun e s' _ => e = .limit ∧ s'.state = { s.state with paused := true }) (fun _ => True) s w := by
  unfold scanOnce
  rw [wpS_bind, wpS_getState, if_neg (by simp [hrunning]), wpS_bind, stopIfFull, wpS_bind,
    wpS_getState, if_pos hfull, pauseAtLimit, wpS_bind, wpS_modifyState, wpS_bind]
  exact save_succeeds hfits ⟨rfl, rfl⟩

end

/-! ## A full queue, and a deep tree -/

theorem bodyLength_proposals (state : PersistentState) {ps : List Proposal} (h : ps ≠ []) :
    PersistentState.bodyLength { state with proposals := ps } =
      PersistentState.bodyLength { state with proposals := [] } + 2 +
        (ps.map fun p => 6 + Json.byteLength (p.json.pretty 2)).sum := by
  have hitems : ps.map Proposal.json ≠ [] := fun he => h (List.map_eq_nil_iff.mp he)
  have hlist := Json.byteLength_pretty_arr 1 hitems
  rw [List.map_map] at hlist
  have hnone : Json.byteLength ((Json.arr []).pretty 1) = 2 := rfl
  have hline : Json.byteLength (Json.newline 1) = 3 := by decide
  change _ = _ + (ps.map fun p => 6 + Json.byteLength (p.json.pretty 2)).sum at hlist
  unfold PersistentState.bodyLength PersistentState.json
  simp only [Json.pretty, Json.prettyFields, Json.byteLength_append, Json.byteLength_cons,
    List.map_nil, Nat.zero_add]
  simp only [Json.pretty, Json.byteLength_cons] at hnone
  omega

/-- A queue of as many moves as it may hold. -/
def fullState : PersistentState :=
  sampleState (List.replicate maxProposals (sampleProposal 1 .proposed))

theorem fullState_fits :
    PersistentState.bodyLength { fullState with paused := true } ≤ maxStateBytes := by
  have hbase : PersistentState.bodyLength { sampleState [] with paused := true } ≤ 2000 := by
    decide +kernel
  have hone : Json.byteLength ((sampleProposal 1 .proposed).json.pretty 2) ≤ 2000 := by
    decide +kernel
  have hsome : List.replicate maxProposals (sampleProposal 1 .proposed) ≠ [] := fun h =>
    absurd (List.length_replicate.symm.trans (congrArg List.length h)) (by decide)
  have hlength := bodyLength_proposals { sampleState [] with paused := true } hsome
  rw [List.map_replicate, List.sum_replicate_nat] at hlength
  change PersistentState.bodyLength { fullState with paused := true } =
    PersistentState.bodyLength { sampleState [] with paused := true } + _ + _ at hlength
  have hmany : maxProposals = 1000 := rfl
  rw [hmany] at hlength
  unfold maxStateBytes
  omega

theorem fullState_full : maxProposals ≤ fullState.proposedCount := by
  unfold fullState sampleState PersistentState.proposedCount
  rw [List.countP_replicate]
  decide

theorem fullState_running : fullState.paused = false := rfl

-- the thousand moves are not computed here
seal fullState in
theorem exhaustion_pauses_safely_full : ∃ (ticks : List Tick) (s' : Service) (w' : World),
    (∀ t ∈ ticks, t.Alone) ∧ ((scanOnce .sample).start (.fresh fullState)).after ticks
      (sampleWorld sampleFiles (sampleRow 1 .proposed) fullState) = (.done (.error .limit, s'), w') ∧
    SafelyPaused (sampleWorld sampleFiles (sampleRow 1 .proposed) fullState) .limit s' w' := by
  obtain ⟨ticks, ⟨r, s'⟩, w', hticks, hafter, hend⟩ :=
    Prog.wp_finish (c := Tick.quiet 0) (show Tick.Sound (Tick.quiet 0) from ⟨rfl, rfl⟩)
      (scanOnce_full (P := .sample) (s := .fresh fullState)
        (w := sampleWorld sampleFiles (sampleRow 1 .proposed) fullState)
        fullState_running fullState_full fullState_fits)
  have halone : ∀ t ∈ ticks, t.Alone := fun t ht => (hticks t ht).alone
  cases r with
  | ok created => exact hend.elim
  | error e =>
    obtain ⟨rfl, hstate⟩ := hend
    obtain ⟨readings, added, -, -, hadded, hsafe⟩ :=
      exhaustion_pauses_safely halone hafter (.inl rfl)
    rw [hstate] at hadded
    obtain rfl : added = [] := List.append_right_eq_self.mp hadded.symm
    refine ⟨ticks, s', w', halone, hafter, hsafe.mpr ⟨.inl fullState_full, ?_⟩⟩
    unfold Room
    rw [List.append_nil]
    exact fullState_fits

/-- `/d` holds the file `a`, and `/w` a chain of folders that has no end. -/
def deepFiles : FileSystem where
  inodes i :=
    if i = ⟨0, 0⟩ then some (folder [(bytes "d", ⟨0, 1⟩), (bytes "w", ⟨1, 0⟩)])
    else if i = ⟨0, 1⟩ then some (folder [(bytes "a", ⟨0, 2⟩)])
    else if i = ⟨0, 2⟩ then some (file (bytes "hi"))
    else some (folder [(bytes "w", ⟨1, i.number + 1⟩)])
  root := ⟨0, 0⟩
  cwd := []

/-- Ticks for a walk of many folders. -/
def manyAt (second : Int) : List Tick := List.replicate 120 (Tick.quiet (second * 1000000000))

/-- `/d` and `/w` are enrolled to be watched, and a scan looks at the file once. -/
def Command.descend : List Command :=
  [.start (quietAt 0), .serve (.addRoot (bytes "/d") true true) (quietAt 0),
   .serve (.addRoot (bytes "/w") true false) (quietAt 0), .serve .scanOnce (manyAt 0)]

/-- A scan that stops at a limit, unpaused, with its proposal unsaved. -/
def stoppedUnpaused (scanned : Sys (Except ServiceError Nat × Service) × World) : Bool :=
  match scanned with
  | (.done (.error .limit, s), w) => !s.state.paused && (s.state.proposals.any fun p => p.id = ⟨2⟩) &&
    w.stateJson.any fun file => file.content.any fun state => state.proposals.isEmpty
  | _ => false

/-- The next scan proposes the file and ends at the limit of the walk: the service is not
paused, and the proposal is not saved. -/
theorem walk_limit_pauses_not : ∃ (events : List Event) (m : Machine) (s s' : Service)
    (ticks : List Tick) (w' : World), Run .sample (Machine.initial deepFiles) events m ∧
      m.service = some s ∧ (∀ t ∈ ticks, t.Alone) ∧
      ((scanOnce .sample).start s).after ticks m.world = (.done (.error .limit, s'), w') ∧
      s'.state.paused = false ∧ (∃ p ∈ s'.state.proposals, p.id = ⟨2⟩) ∧
      ∃ file state, w'.stateJson = some file ∧ file.content = some state ∧
        state.proposals = [] := by
  obtain ⟨events, m, hrun, htest⟩ := exists_run (P := .sample) (m := Machine.initial deepFiles)
    Command.descend (fun _ m => m.service.any fun s =>
      stoppedUnpaused (((scanOnce .sample).start s).after (manyAt 2) m.world))
    (by decide +kernel)
  obtain ⟨s, hs, htest⟩ := (Option.any_eq_true _ _).mp htest
  generalize hafter : ((scanOnce .sample).start s).after (manyAt 2) m.world = scanned at htest
  unfold stoppedUnpaused at htest
  split at htest
  · next s' w' =>
    simp only [Bool.and_eq_true, Bool.not_eq_true', List.any_eq_true, decide_eq_true_eq] at htest
    obtain ⟨⟨hpaused, hmade⟩, hsaved⟩ := htest
    obtain ⟨file, hfile, hsaved⟩ := (Option.any_eq_true _ _).mp hsaved
    obtain ⟨state, hstate, hempty⟩ := (Option.any_eq_true _ _).mp hsaved
    refine ⟨events, m, s, s', manyAt 2, w', hrun, hs, ?_, hafter, hpaused, hmade, file, state,
      hfile, hstate, List.isEmpty_iff.mp hempty⟩
    intro t ht
    rw [List.eq_of_mem_replicate ht]
    rfl
  · cases htest

end SortingHat
