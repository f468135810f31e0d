import SortingHat.Daemon.Dispatch
import SortingHat.Service.Body
import SortingHat.Service.Reopening
import SortingHat.Service.Sightings

/-!
# What the daemon can answer

The modification time of a proposal is an `i128` of nanoseconds, and a response holds
numbers of 64 bits.

* `Timed`, `KeepsTimes`: the requests on a proposal keep the times of the queue;
* `dispatch_answers`: where all times fit, no request panics;
* `proposalShow_panics`: where one does not, a request does;
* `save_survives`: a save and an open give a proposal back, whatever its time;
* `daemon_answers`: so the daemon answers exactly where the files' times fit.
-/

namespace SortingHat
open Posix Effect Text
open Journal (Row Database State)

/-- The times of all proposals satisfy `T`. -/
def Timed (T : Int → Prop) (state : PersistentState) : Prop := ∀ p ∈ state.proposals, T p.modifiedNs

/-- The request keeps the times of the queue. -/
abbrev KeepsTimes (T : Int → Prop) {α : Type} (x : ServiceM α) (R : α → Prop) : Prop :=
  KeepsS (fun _ => True) (fun s _ => Timed T s.state) x R

section
variable {T : Int → Prop} {P : Platform} {D : Decoders} {α δ V : Type} {R : α → Prop} {s : Service}
  {w : World}

/-! ## Steps of a request -/

theorem keepsTimes_part {part : Prog.Part World V} {f : δ → ServiceError} {y : Fallible Tick V δ α} :
    KeepsTimes T (embed f (inPart part y)) (fun _ => True) :=
  fun s _ h => wpS_inPart (fun _ _ => ⟨h, trivial⟩) (fun _ _ => h) fun _ => ⟨s, h⟩

theorem keepsTimes_getState : KeepsTimes T getState (Timed T) := fun _ _ h => ⟨h, h⟩

theorem keepsTimes_orFail (o : Option α) (e : ServiceError) :
    KeepsTimes T (orFail o e) (fun a => o = some a) :=
  fun _ _ h => (wpS_orFail o e).mpr ⟨fun _ => h, fun _ ha => ⟨h, ha⟩⟩

theorem keepsTimes_modify {f : PersistentState → PersistentState}
    (hf : ∀ state, Timed T state → Timed T (f state)) :
    KeepsTimes T (modifyState f) (fun _ => True) :=
  keepsS_modify fun s _ h => hf s.state h

theorem keepsTimes_modifyProposal (index : Nat) {f : Proposal → Proposal}
    (hf : ∀ p, (f p).modifiedNs = p.modifiedNs) :
    KeepsTimes T (modifyProposal index f) (fun _ => True) := by
  apply keepsTimes_modify
  intro state h p hp
  rcases mem_modify hp with ⟨old, ho, rfl⟩ | ⟨i, -, hi⟩
  · rw [hf]
    exact h old (List.mem_of_getElem? ho)
  · exact h p (List.mem_of_getElem? hi)

theorem keepsTimes_proposalAt (index : Nat) :
    KeepsTimes T (proposalAt index) (fun p => T p.modifiedNs) := by
  unfold proposalAt
  refine keepsS_bind keepsTimes_getState fun state hstate => ?_
  exact (keepsTimes_orFail _ _).mono fun p hp => hstate p (List.mem_of_getElem? hp)

theorem keepsTimes_save : KeepsTimes T save (fun _ => True) := by
  unfold save
  refine keepsS_then keepsTimes_getState fun state => ?_
  refine keepsS_then (keepsS_failIf _ _) fun _ => ?_
  refine keepsS_then keepsTimes_part fun _ => ?_
  refine keepsS_then keepsTimes_part fun _ => ?_
  refine keepsS_then keepsTimes_part fun _ => ?_
  refine keepsS_then keepsTimes_part fun _ => ?_
  refine keepsS_then keepsTimes_part fun _ => ?_
  exact keepsTimes_part

theorem keepsTimes_requireDirectory (path : Bytes) :
    KeepsTimes T (requireDirectory path) (fun _ => True) := by
  unfold requireDirectory
  refine keepsS_then keepsTimes_part fun found => ?_
  exact (keepsS_failIf _ _).mono fun _ _ => trivial

theorem keepsTimes_moveWarning (source destination : Bytes) :
    KeepsTimes T (moveWarning? source destination) (fun _ => True) := by
  unfold moveWarning?
  exact keepsS_then keepsTimes_part fun _ => keepsS_pure trivial

/-- The check of a request is one of `Sightings`. -/
theorem keepsTimes_check (r : Except ServiceError α) : KeepsTimes T (check r) (fun _ => True) := by
  cases r with
  | error e => exact keepsS_throw e
  | ok a => exact keepsS_pure trivial

/-! ## Requests on a proposal -/

theorem keepsTimes_finish (index revision : Nat) (status : Status) :
    KeepsTimes T (finish index revision status) (fun p => T p.modifiedNs) := by
  unfold finish
  refine keepsS_then (keepsTimes_modifyProposal index fun _ => rfl) fun _ => ?_
  refine keepsS_bind (keepsTimes_proposalAt index) fun result hresult => ?_
  refine keepsS_then (keepsTimes_modify fun state h p hp => ?_) fun _ => ?_
  · exact h p ((pruned_sublist state.proposals).subset hp)
  refine keepsS_then (R := fun _ => True) ?_ fun _ => ?_
  · unfold enforceJournalRetention
    exact keepsS_then keepsTimes_part fun _ => keepsS_pure trivial
  · exact keepsS_then keepsTimes_save fun _ => keepsS_pure hresult

theorem keepsTimes_ignore (id : Uuid) (revision : Nat) :
    KeepsTimes T (ignore id revision) (fun p => T p.modifiedNs) := by
  unfold ignore
  refine keepsS_then keepsTimes_getState fun state => ?_
  refine keepsS_then (keepsTimes_check _) fun index => ?_
  refine keepsS_then keepsTimes_part fun entry => ?_
  exact keepsTimes_finish _ _ _

theorem keepsTimes_chooseDestination (id : Uuid) (revision : Nat) (rootId : Uuid)
    (directory : String) :
    KeepsTimes T (chooseDestination id revision rootId directory) (fun p => T p.modifiedNs) := by
  unfold chooseDestination
  refine keepsS_then (keepsTimes_check _) fun _ => ?_
  refine keepsS_then keepsTimes_getState fun state => ?_
  refine keepsS_then (keepsTimes_orFail _ _) fun root => ?_
  refine keepsS_then (keepsTimes_requireDirectory _) fun _ => ?_
  refine keepsS_then (keepsTimes_check _) fun index => ?_
  refine keepsS_then (keepsTimes_proposalAt _) fun proposal => ?_
  refine keepsS_then (keepsTimes_check _) fun relative => ?_
  refine keepsS_then (keepsTimes_orFail _ _) fun sourceName => ?_
  refine keepsS_then (keepsTimes_check _) fun sourcePath => ?_
  refine keepsS_then (keepsTimes_moveWarning _ _) fun warning => ?_
  refine keepsS_then keepsTimes_part fun entry => ?_
  refine keepsS_then (keepsTimes_modifyProposal _ fun _ => rfl) fun _ => ?_
  refine keepsS_bind (keepsTimes_proposalAt _) fun result hresult => ?_
  exact keepsS_then keepsTimes_save fun _ => keepsS_pure hresult

theorem keepsTimes_addRoot (path : Bytes) (watched destination : Bool) :
    KeepsTimes T (addRoot P path watched destination) (fun _ => True) := by
  unfold addRoot
  refine keepsS_then keepsTimes_getState fun state => ?_
  refine keepsS_then (keepsS_failIf _ _) fun _ => ?_
  refine keepsS_then (keepsTimes_requireDirectory _) fun _ => ?_
  refine keepsS_then keepsTimes_part fun canonical => ?_
  refine keepsS_then (keepsTimes_orFail _ _) fun display => ?_
  refine keepsS_then (keepsS_failIf _ _) fun _ => ?_
  refine keepsS_then keepsTimes_part fun _ => ?_
  refine keepsS_then keepsTimes_part fun id => ?_
  refine keepsS_then (keepsTimes_modify fun _ h => h) fun _ => ?_
  exact keepsS_then keepsTimes_save fun _ => keepsS_pure trivial

theorem keepsTimes_chooseDestinationPath (id : Uuid) (revision : Nat) (folder : Bytes) :
    KeepsTimes T (chooseDestinationPath P id revision folder) (fun p => T p.modifiedNs) := by
  unfold chooseDestinationPath
  refine keepsS_then (keepsTimes_requireDirectory _) fun _ => ?_
  refine keepsS_then keepsTimes_part fun canonical => ?_
  refine keepsS_then keepsTimes_getState fun state => ?_
  refine keepsS_then (R := fun _ => True) ?_ fun root => ?_
  · split
    · exact keepsS_pure trivial
    · exact keepsTimes_addRoot _ _ _
  refine keepsS_then (keepsTimes_orFail _ _) fun relative => ?_
  refine keepsS_then (R := fun _ => True) ?_ fun directory => ?_
  · split
    · exact keepsS_pure trivial
    · exact (keepsTimes_orFail _ _).mono fun _ _ => trivial
  exact keepsTimes_chooseDestination _ _ _ _

theorem keepsTimes_renameProposal (id : Uuid) (revision : Nat) (name : String) :
    KeepsTimes T (renameProposal id revision name) (fun p => T p.modifiedNs) := by
  unfold renameProposal
  refine keepsS_then (keepsS_failIf _ _) fun _ => ?_
  refine keepsS_then (keepsTimes_orFail _ _) fun fileName => ?_
  refine keepsS_then keepsTimes_getState fun state => ?_
  refine keepsS_then (keepsTimes_check _) fun index => ?_
  refine keepsS_then (keepsTimes_proposalAt _) fun proposal => ?_
  refine keepsS_then (keepsTimes_orFail _ _) fun choice => ?_
  refine keepsS_then (keepsTimes_orFail _ _) fun root => ?_
  refine keepsS_then keepsTimes_part fun entry => ?_
  refine keepsS_then (keepsTimes_modifyProposal _ fun _ => rfl) fun _ => ?_
  refine keepsS_bind (keepsTimes_proposalAt _) fun result hresult => ?_
  exact keepsS_then keepsTimes_save fun _ => keepsS_pure hresult

theorem keepsTimes_openParent (rootFd : Fd) (rootPath relative : Bytes) :
    KeepsTimes T (openParent rootFd rootPath relative) (fun _ => True) := by
  unfold openParent
  split <;> exact keepsTimes_part

theorem keepsTimes_openFolder (rootPath : Bytes) (directory : String) :
    KeepsTimes T (openFolder rootPath directory) (fun _ => True) := by
  unfold openFolder
  refine keepsS_then keepsTimes_part fun rootFd => ?_
  split <;> exact keepsTimes_part

theorem keepsTimes_approveChecks (id : Uuid) (revision : Nat) :
    KeepsTimes T (approveChecks P id revision) (fun _ => True) := by
  unfold approveChecks
  refine keepsS_then keepsTimes_getState fun state => ?_
  refine keepsS_then (keepsTimes_check _) fun index => ?_
  refine keepsS_then (keepsTimes_proposalAt _) fun proposal => ?_
  refine keepsS_then (keepsTimes_orFail _ _) fun choice => ?_
  refine keepsS_then (keepsTimes_orFail _ _) fun destinationRoot => ?_
  refine keepsS_then (keepsTimes_orFail _ _) fun sourceRoot => ?_
  refine keepsS_then (keepsTimes_check _) fun relative => ?_
  refine keepsS_then keepsTimes_part fun rootFd => ?_
  refine keepsS_then keepsTimes_part fun verifiedFd => ?_
  refine keepsS_then (keepsTimes_openParent _ _ _) fun sourceParentFd => ?_
  refine keepsS_then (keepsTimes_orFail _ _) fun sourceName => ?_
  refine keepsS_then (keepsTimes_requireDirectory _) fun _ => ?_
  refine keepsS_then (keepsTimes_openFolder _ _) fun destinationFolderFd => ?_
  refine keepsS_then (keepsTimes_orFail _ _) fun basename => ?_
  refine keepsS_then keepsTimes_part fun taken => ?_
  exact keepsS_then (keepsS_failIf _ _) fun _ => keepsS_pure trivial

theorem keepsTimes_publishSame (o : Opened) (id : Uuid) (revision : Nat) (name : Bytes) :
    KeepsTimes T (publishSame o id revision name) (fun _ => True) := by
  unfold publishSame
  refine keepsS_then keepsTimes_part fun _ => ?_
  exact keepsS_then keepsTimes_part fun _ => keepsS_pure trivial

theorem keepsTimes_publishCross (o : Opened) (fd : Fd) (id : Uuid) (revision : Nat) (name : Bytes) :
    KeepsTimes T (publishCross P o fd id revision name) (fun _ => True) := by
  unfold publishCross
  refine keepsS_then keepsTimes_part fun _ => ?_
  refine keepsS_then keepsTimes_part fun _ => ?_
  refine keepsS_then keepsTimes_part fun _ => ?_
  refine keepsS_then keepsTimes_part fun _ => ?_
  refine keepsS_then keepsTimes_part fun _ => ?_
  refine keepsS_then keepsTimes_part fun _ => ?_
  exact keepsS_then keepsTimes_part fun _ => keepsS_pure trivial

theorem keepsTimes_approve (id : Uuid) (revision : Nat) :
    KeepsTimes T (approve P id revision) (fun p => T p.modifiedNs) := by
  unfold approve
  refine keepsS_then (keepsTimes_approveChecks id revision) fun ready => ?_
  obtain ⟨o, verifiedFd⟩ := ready
  unfold approveMove
  refine keepsS_then keepsTimes_part fun entry => ?_
  refine keepsS_then (keepsTimes_modifyProposal _ fun _ => rfl) fun _ => ?_
  refine keepsS_then (keepsTimes_orFail _ _) fun destinationName => ?_
  refine keepsS_then keepsTimes_part fun sourceDevice => ?_
  refine keepsS_then keepsTimes_part fun destinationDevice => ?_
  refine keepsS_then (R := fun _ => True) ?_ fun published => ?_
  · split
    · exact keepsTimes_publishSame _ _ _ _
    · exact keepsTimes_publishCross _ _ _ _ _
  refine keepsS_then keepsTimes_part fun removed => ?_
  refine keepsS_then keepsTimes_part fun completed => ?_
  exact keepsTimes_finish _ _ _

theorem keepsTimes_undoChecks (id : Uuid) (revision : Nat) :
    KeepsTimes T (undoChecks P id revision) (fun _ => True) := by
  unfold undoChecks
  refine keepsS_then keepsTimes_getState fun state => ?_
  refine keepsS_then (keepsTimes_check _) fun index => ?_
  refine keepsS_then (keepsTimes_proposalAt _) fun proposal => ?_
  refine keepsS_then (keepsS_failIf _ _) fun _ => ?_
  refine keepsS_then (keepsTimes_check _) fun source => ?_
  refine keepsS_then (keepsTimes_check _) fun destination => ?_
  refine keepsS_then (R := fun _ => True) ?_ fun present => ?_
  · unfold pathExists
    exact keepsS_then keepsTimes_part fun _ => keepsS_pure trivial
  refine keepsS_then (keepsS_failIf _ _) fun _ => ?_
  refine keepsS_then keepsTimes_part fun taken => ?_
  refine keepsS_then (keepsS_failIf _ _) fun _ => ?_
  refine keepsS_then (keepsTimes_check _) fun relative => ?_
  refine keepsS_then (keepsTimes_orFail _ _) fun sourceRoot => ?_
  refine keepsS_then (keepsTimes_orFail _ _) fun choice => ?_
  refine keepsS_then (keepsTimes_orFail _ _) fun destinationRoot => ?_
  refine keepsS_then keepsTimes_part fun sourceRootFd => ?_
  refine keepsS_then (keepsTimes_openParent _ _ _) fun sourceParentFd => ?_
  refine keepsS_then (keepsTimes_openFolder _ _) fun destinationParentFd => ?_
  refine keepsS_then keepsTimes_part fun sourceDevice => ?_
  refine keepsS_then keepsTimes_part fun destinationDevice => ?_
  exact keepsS_then (keepsS_failIf _ _) fun _ => keepsS_pure trivial

theorem keepsTimes_undo (id : Uuid) (revision : Nat) :
    KeepsTimes T (undo P id revision) (fun p => T p.modifiedNs) := by
  unfold undo
  refine keepsS_then (keepsTimes_undoChecks id revision) fun ready => ?_
  obtain ⟨o, relative⟩ := ready
  unfold undoMove
  refine keepsS_then keepsTimes_part fun entry => ?_
  refine keepsS_then (keepsTimes_orFail _ _) fun destinationName => ?_
  refine keepsS_then (keepsTimes_orFail _ _) fun sourceName => ?_
  refine keepsS_then keepsTimes_part fun _ => ?_
  refine keepsS_then keepsTimes_part fun undone => ?_
  exact keepsTimes_finish _ _ _

/-! ## Answers -/

theorem value_isSome {p : Proposal} (h : Fits p.modifiedNs) : p.value?.isSome = true := by
  unfold Proposal.value?
  rw [if_pos h]
  rfl

theorem proposalsValue_isSome {proposals : List Proposal} (h : ∀ p ∈ proposals, Fits p.modifiedNs) :
    (proposalsValue? proposals).isSome = true := by
  have hall : (proposals.mapM Proposal.value?).isSome = true := by
    induction proposals with
    | nil => rfl
    | cons p proposals ih =>
      obtain ⟨hp, hrest⟩ := List.forall_mem_cons.mp h
      obtain ⟨value, hvalue⟩ := Option.isSome_iff_exists.mp (value_isSome hp)
      obtain ⟨values, hvalues⟩ := Option.isSome_iff_exists.mp (ih hrest)
      rw [List.mapM_cons, hvalue, hvalues]
      rfl
  unfold proposalsValue?
  rw [Option.isSome_map]
  exact hall

/-- The requests that answer with proposals. -/
def Verb.shows : Verb → Bool
  | .queueList | .proposalShow | .proposalDestination | .proposalChooseFolder | .proposalRename
  | .proposalApprove | .proposalIgnore | .undo => true
  | _ => false

theorem keepsTimes_id (request : Request) : KeepsTimes T (requireId request) (fun _ => True) :=
  (keepsTimes_orFail _ _).mono fun _ _ => trivial

theorem keepsTimes_revision (request : Request) :
    KeepsTimes T (requireRevision request) (fun _ => True) :=
  (keepsTimes_orFail _ _).mono fun _ _ => trivial

theorem keepsTimes_argument (request : Request) :
    KeepsTimes T (requireArgument request) (fun _ => True) :=
  (keepsTimes_orFail _ _).mono fun _ _ => trivial

theorem keepsTimes_value {x : ServiceM Proposal} (h : KeepsTimes Fits x fun p => Fits p.modifiedNs) :
    KeepsTimes Fits (do let proposal ← x; return proposal.value?) (fun data => data.isSome = true) :=
  keepsS_bind h fun _ hp => keepsS_pure (value_isSome hp)

/-- **Where all times fit, what shows proposals has something to show.** -/
theorem dispatchData_shows {request : Request} {verb : Verb} (hverb : verb.shows = true) :
    KeepsTimes Fits (dispatchData P D request verb) (fun data => data.isSome = true) := by
  cases verb with
  | queueList =>
    refine keepsS_bind keepsTimes_getState fun state hstate => keepsS_pure ?_
    apply proposalsValue_isSome
    intro p hp
    have hm := List.mem_reverse.mp (List.mem_of_mem_take hp)
    exact hstate p (List.mem_of_mem_filter hm)
  | proposalShow =>
    refine keepsS_then (keepsTimes_id request) fun id => ?_
    refine keepsS_bind keepsTimes_getState fun state hstate => ?_
    apply keepsTimes_value
    exact (keepsTimes_orFail _ _).mono fun p hp => hstate p (List.mem_of_find?_eq_some hp)
  | proposalDestination =>
    refine keepsS_then (R := fun _ => True) ?_ fun arg => ?_
    · unfold parseArgument
      refine keepsS_then (keepsTimes_argument request) fun argument => ?_
      exact (keepsTimes_orFail _ _).mono fun _ _ => trivial
    refine keepsS_then (keepsTimes_id request) fun id => ?_
    refine keepsS_then (keepsTimes_revision request) fun revision => ?_
    exact keepsTimes_value (keepsTimes_chooseDestination _ _ _ _)
  | proposalChooseFolder =>
    refine keepsS_then (keepsTimes_id request) fun id => ?_
    refine keepsS_then (keepsTimes_revision request) fun revision => ?_
    refine keepsS_then (keepsTimes_argument request) fun folder => ?_
    exact keepsTimes_value (keepsTimes_chooseDestinationPath _ _ _)
  | proposalRename =>
    refine keepsS_then (keepsTimes_id request) fun id => ?_
    refine keepsS_then (keepsTimes_revision request) fun revision => ?_
    refine keepsS_then (keepsTimes_argument request) fun name => ?_
    exact keepsTimes_value (keepsTimes_renameProposal _ _ _)
  | proposalApprove =>
    refine keepsS_then (keepsTimes_id request) fun id => ?_
    refine keepsS_then (keepsTimes_revision request) fun revision => ?_
    exact keepsTimes_value (keepsTimes_approve _ _)
  | proposalIgnore =>
    refine keepsS_then (keepsTimes_id request) fun id => ?_
    refine keepsS_then (keepsTimes_revision request) fun revision => ?_
    exact keepsTimes_value (keepsTimes_ignore _ _)
  | undo =>
    refine keepsS_then (keepsTimes_id request) fun id => ?_
    refine keepsS_then (keepsTimes_revision request) fun revision => ?_
    exact keepsTimes_value (keepsTimes_undo _ _)
  | _ => cases hverb

/-- What holds whatever happens. -/
theorem wpS_any {A : Tick → Prop} {x : ServiceM α} {Q : α → Service → World → Prop}
    (hQ : ∀ a s w, Q a s w) :
    wpS A x Q (fun _ _ _ => True) (fun _ => True) s w := by
  apply Prog.wp_trivial
  · rintro ⟨r, s'⟩ w'
    cases r with
    | ok a => exact hQ a s' w'
    | error e => trivial
  · exact fun _ => trivial

theorem wpS_then {A : Tick → Prop} {β : Type} {x : ServiceM α} {f : α → ServiceM β}
    {Q : β → Service → World → Prop}
    (hf : ∀ a s w, wpS A (f a) Q (fun _ _ _ => True) (fun _ => True) s w) :
    wpS A (x >>= f) Q (fun _ _ _ => True) (fun _ => True) s w :=
  (wpS_bind _ _).mpr (wpS_any hf)

/-- The other requests always have something to show. -/
theorem dispatchData_any {request : Request} {verb : Verb} (hverb : verb.shows = false) :
    wpS (fun _ => True) (dispatchData P D request verb) (fun data _ _ => data.isSome = true)
      (fun _ _ _ => True) (fun _ => True) s w := by
  cases verb with
  | status => exact wpS_then fun _ _ _ => (wpS_pure _).mpr rfl
  | pause => exact wpS_then fun _ _ _ => (wpS_pure _).mpr rfl
  | resume => exact wpS_then fun _ _ _ => (wpS_pure _).mpr rfl
  | scan => exact wpS_then fun _ _ _ => (wpS_pure _).mpr rfl
  | rootsList => exact wpS_then fun _ _ _ => (wpS_pure _).mpr rfl
  | rootsAdd => exact wpS_then fun _ _ _ => wpS_then fun _ _ _ => (wpS_pure _).mpr rfl
  | rootsRemove => exact wpS_then fun _ _ _ => wpS_then fun _ _ _ => (wpS_pure _).mpr rfl
  | rulesList => exact wpS_then fun _ _ _ => (wpS_pure _).mpr rfl
  | ruleCreate =>
    refine wpS_then fun _ _ _ => wpS_then fun _ _ _ => ?_
    exact wpS_then fun _ _ _ => wpS_then fun _ _ _ => (wpS_pure _).mpr rfl
  | agentStatus => exact wpS_then fun _ _ _ => (wpS_pure _).mpr rfl
  | agentEnable => exact wpS_then fun _ _ _ => wpS_then fun _ _ _ => (wpS_pure _).mpr rfl
  | agentDisable => exact wpS_then fun _ _ _ => (wpS_pure _).mpr rfl
  | _ => cases hverb

/-- **Where all times fit, no request panics.** -/
theorem dispatch_answers (request : Request) (h : Timed Fits s.state) :
    wpS (fun _ => True) (dispatch P D request) (fun response _ _ => response.isSome = true)
      (fun _ _ _ => True) (fun _ => True) s w := by
  unfold dispatch
  rw [wpS_bind, wpS_orFail]
  refine ⟨fun _ => trivial, fun verb _ => ?_⟩
  have hdata : wpS (fun _ => True) (dispatchData P D request verb)
      (fun data _ _ => data.isSome = true) (fun _ _ _ => True) (fun _ => True) s w := by
    cases hverb : verb.shows with
    | true =>
      apply wpS_mono (dispatchData_shows hverb s w h)
      · exact fun _ _ _ hdata => hdata.2
      · exact fun _ _ _ _ => trivial
      · exact fun _ _ => trivial
    | false => exact dispatchData_any hverb
  refine (wpS_bind _ _).mpr (wpS_mono hdata ?_ (fun _ _ _ _ => trivial) fun _ _ => trivial)
  intro data s' w' hsome
  rw [wpS_bind, wpS_getState, wpS_pure, Option.isSome_map]
  exact hsome

/-! ## Panics -/

/-- The request to show one proposal. -/
def showRequest (id : Uuid) : Request where
  schemaVersion := 1
  correlationId := ⟨1⟩
  action := Verb.proposalShow.text
  proposalId := some id
  revision := none
  argument := none

theorem showRequest_valid (id : Uuid) : validateRequest (showRequest id) = true := by
  -- the id is not looked at
  have hsame : validateRequest (showRequest id) = validateRequest (showRequest ⟨0⟩) := rfl
  rw [hsame]
  decide

/-- **A proposal whose time does not fit cannot be shown.** -/
theorem proposalShow_panics {A : Tick → Prop} {p : Proposal}
    (hfind : s.state.findProposal p.id = some p) (hp : ¬ Fits p.modifiedNs) :
    wpS A (dispatch P D (showRequest p.id)) (fun response _ _ => response = none)
      (fun _ _ _ => False) (fun _ => False) s w := by
  have hverb : Verb.ofText? (showRequest p.id).action = some .proposalShow :=
    Verb.ofText?_text .proposalShow
  unfold dispatch
  rw [hverb, wpS_bind, wpS_orFail]
  refine ⟨nofun, fun verb h => ?_⟩
  obtain rfl := Option.some.inj h
  rw [wpS_bind]
  unfold dispatchData requireId
  rw [wpS_bind, wpS_orFail]
  refine ⟨nofun, fun id h => ?_⟩
  obtain rfl := Option.some.inj h
  rw [wpS_bind, wpS_getState, wpS_bind, wpS_orFail]
  refine ⟨fun h => (nomatch hfind.symm.trans h), fun q hq => ?_⟩
  obtain rfl := Option.some.inj (hfind.symm.trans hq)
  rw [wpS_pure, wpS_bind, wpS_getState, wpS_pure]
  unfold Proposal.value?
  rw [if_neg hp]
  rfl

/-- The request for the queue. -/
def queueRequest : Request where
  schemaVersion := 1
  correlationId := ⟨1⟩
  action := Verb.queueList.text
  proposalId := none
  revision := none
  argument := none

theorem proposalsValue_eq_none {proposals : List Proposal} {p : Proposal} (hm : p ∈ proposals)
    (hp : ¬ Fits p.modifiedNs) : proposalsValue? proposals = none := by
  have hnone : proposals.mapM Proposal.value? = none := by
    induction proposals with
    | nil => cases hm
    | cons q proposals ih =>
      rw [List.mapM_cons]
      cases hq : q.value? with
      | none => rfl
      | some value =>
        rcases List.mem_cons.mp hm with rfl | hm
        · unfold Proposal.value? at hq
          rw [if_neg hp] at hq
          cases hq
        · rw [ih hm]
          rfl
  unfold proposalsValue?
  rw [hnone]
  rfl

/-- Nor can the queue be listed, when the proposal is among the newest. -/
theorem queueList_panics {A : Tick → Prop} {p : Proposal} (hm : p ∈ s.state.listed)
    (hp : ¬ Fits p.modifiedNs) :
    wpS A (dispatch P D queueRequest) (fun response _ _ => response = none) (fun _ _ _ => False)
      (fun _ => False) s w := by
  have hverb : Verb.ofText? queueRequest.action = some .queueList := Verb.ofText?_text .queueList
  unfold dispatch
  rw [hverb, wpS_bind, wpS_orFail]
  refine ⟨nofun, fun verb h => ?_⟩
  obtain rfl := Option.some.inj h
  rw [wpS_bind]
  unfold dispatchData
  rw [wpS_bind, wpS_getState, wpS_pure, wpS_bind, wpS_getState, wpS_pure,
    proposalsValue_eq_none hm hp]
  rfl

/-- No valid request panics. -/
def Answers (P : Platform) (D : Decoders) (s : Service) (w : World) : Prop :=
  ∀ request ticks response s' w', validateRequest request = true →
    ((dispatch P D request).start s).after ticks w = (.done (.ok response, s'), w') →
    response.isSome = true

theorem answers_iff (hd : (s.state.proposals.map Proposal.id).Nodup) :
    Answers P D s w ↔ Timed Fits s.state := by
  constructor
  · intro h p hp
    by_contra hfits
    have hfind := PersistentState.findProposal_of_mem hd hp
    obtain ⟨ticks, ⟨r, s'⟩, w', -, hafter, hholds⟩ := Prog.wp_finish (A := fun _ => True)
      (c := Tick.quiet 0) trivial (proposalShow_panics (P := P) (D := D) (w := w) hfind hfits)
    cases r with
    | error e => exact hholds
    | ok response =>
      have hsome := h (showRequest p.id) ticks response s' w' (showRequest_valid p.id) hafter
      rw [hholds] at hsome
      cases hsome
  · intro h request ticks response s' w' _ hafter
    have hholds := Prog.wp_after (dispatch_answers (P := P) (D := D) (w := w) request h)
      ticks fun _ _ => trivial
    rw [hafter] at hholds
    exact hholds

/-! ## Runs -/

/-- The modification times of all files fit. -/
def TimesFit (fs : FileSystem) : Prop := ∀ i inode, fs.inodes i = some inode → Fits inode.modifiedNs

theorem inodes_of_stat {fs : FileSystem} {path : Bytes} {i : InodeId} {inode : Inode}
    (h : fs.stat false path = .ok (i, inode)) : fs.inodes i = some inode := by
  unfold FileSystem.stat at h
  cases hfd : fs.resolve false path with
  | error e =>
    rw [hfd] at h
    cases h
  | ok fd =>
    rw [hfd] at h
    simp only [bind, Except.bind] at h
    split at h
    · next found hfound =>
      obtain ⟨rfl, rfl⟩ := Prod.mk.inj (Except.ok.inj h)
      exact hfound
    · cases h

theorem Seen.fits {p : Proposal} (h : Seen TimesFit p) : Fits p.modifiedNs := by
  obtain ⟨root, relative, fs, i, inode, -, -, hfs, hstat, hidentity⟩ := h
  have htime : p.modifiedNs = inode.modifiedNs := congrArg Identity.modifiedNs hidentity
  rw [htime]
  exact hfs i inode (inodes_of_stat hstat)

variable {fs : FileSystem} {m : Machine} {events : List Event}

theorem Run.distinct (h : Run P (Machine.initial fs) events ⟨w, some s⟩) :
    (s.state.proposals.map Proposal.id).Nodup := by
  obtain ⟨room, -, horderly⟩ := h.orderly
  have horderly : Orderly P [] room s w := horderly
  exact horderly.trails.distinct

/-- What has been saved is loaded again, and an open that finishes and has looked for it
gives back every proposal whose row is not interrupted. -/
structure Survives (P : Platform) (s : Service) (w : World) : Prop where
  loads : ∀ ticks : Nat → Tick, (∀ n, (ticks n).fault = none) →
    ∃ n, (ExceptT.run loadState).after ((List.range n).map ticks) w.stateJson =
      (.done (.ok s.state), w.stateJson)
  returns : ∀ p ∈ s.state.proposals, p.status.terminal = false →
    (∀ row ∈ w.db.rows, row.id = p.id → row.interrupted = false) →
    ∀ fs ticks s' w', Overlooks { w with fs } ticks = false →
      (ExceptT.run (Service.open P)).after ticks { w with fs } = (.done (.ok s'), w') →
      p ∈ s'.state.proposals

/-- **A save and an open give every proposal back.** -/
theorem save_survives {ticks : List Tick} {s' : Service} {w' : World}
    (h : Run P (Machine.initial fs) events ⟨w, some s⟩)
    (hsave : (save.start s).after ticks w = (.done (.ok (), s'), w')) : Survives P s w' := by
  have hholds := Prog.wp_after (save_wp (A := fun _ => True) (s := s) (w := w)) ticks
    fun _ _ => trivial
  change Prog.Holds _ _ ((save.start s).after ticks w) at hholds
  rw [hsave] at hholds
  obtain ⟨-, hsaved⟩ := hholds
  constructor
  · intro ticks hquiet
    rw [hsaved.stateJson]
    exact loadState_returns rfl hsaved.fits h.bodied.1 ticks hquiet
  · intro p hp hopen hrest fs ticks s'' w'' hseen hafter
    exact open_returns hseen hsaved.stateJson rfl h.distinct hp hopen hrest hafter

/-- **The daemon answers every request in exactly the states in which every time fits**,
and all of them fit where the times of the files do that the scans find. What is saved
survives, whether its times fit or not. -/
theorem daemon_answers (P : Platform) (D : Decoders) (fs : FileSystem) :
    (∀ events w s, Run P (Machine.initial fs) events ⟨w, some s⟩ →
      (Answers P D s w ↔ Timed Fits s.state)) ∧
    (∀ commands events m, (Machine.initial fs).replay? P commands = some (events, m) →
      (Machine.initial fs).Along P (Showing TimesFit) commands → m.Holds fun _ => Timed Fits) ∧
    ∀ events w s, Run P (Machine.initial fs) events ⟨w, some s⟩ → ∀ ticks s' w',
      (save.start s).after ticks w = (.done (.ok (), s'), w') → Survives P s w' := by
  refine ⟨fun events w s h => answers_iff h.distinct, ?_, ?_⟩
  · intro commands events m h hC
    have hseen := seen h hC
    constructor
    · exact fun s hs p hp => (hseen.running s hs p hp).fits
    · exact fun file state hfile hcontent p hp => (hseen.saved file state hfile hcontent p hp).fits
  · exact fun events w s h ticks s' w' hsave => save_survives h hsave

end

/-- The small file system with another time for `/w/a`. -/
def filesAt (modifiedNs : Int) : FileSystem where
  inodes i := if i = ⟨0, 4⟩ then some { file (bytes "hi") with modifiedNs } else sampleFiles.inodes i
  root := sampleFiles.root
  cwd := sampleFiles.cwd

/-- The last second of 64 bits. -/
def farFuture : Int := 9223372036854775807 * 1000000000

def Decoders.none : Decoders := ⟨fun _ => .none, fun _ => .none, fun _ => .none⟩

/-- A file of the last second is proposed, and then the queue cannot be listed. -/
theorem queue_panics : ∃ (events : List Event) (w w' : World) (s s' : Service) (ticks : List Tick),
    Run .sample (Machine.initial (filesAt farFuture)) events ⟨w, some s⟩ ∧
      s.state.proposals.map Proposal.modifiedNs = [farFuture] ∧
      validateRequest queueRequest = true ∧
      ((dispatch .sample .none queueRequest).start s).after ticks w = (.done (.ok none, s'), w') := by
  obtain ⟨events, m, hrun, htest⟩ := exists_run (P := .sample)
    (m := Machine.initial (filesAt farFuture)) (Command.enrol (bytes "/d"))
    (fun _ m => m.service.any fun s => s.state.proposals.map Proposal.modifiedNs = [farFuture] &&
      s.state.listed.any fun p => p.modifiedNs = farFuture) (by decide +kernel)
  obtain ⟨w, service⟩ := m
  obtain ⟨s, rfl, htest⟩ := (Option.any_eq_true _ _).mp htest
  obtain ⟨htimes, hlisted⟩ := Bool.and_eq_true_iff.mp htest
  obtain ⟨p, hp, htime⟩ := List.any_eq_true.mp hlisted
  have hfits : ¬ Fits p.modifiedNs := by
    rw [of_decide_eq_true htime]
    decide
  obtain ⟨ticks, ⟨r, s'⟩, w', -, hafter, hholds⟩ := Prog.wp_finish (A := fun _ => True)
    (c := Tick.quiet 0) trivial (queueList_panics (P := .sample) (D := .none) (w := w) hp hfits)
  cases r with
  | error e => exact hholds.elim
  | ok response =>
    obtain rfl : response = none := hholds
    exact ⟨events, w, w', s, s', ticks, hrun, of_decide_eq_true htimes, by decide, hafter⟩

/-- A file of a second after 1970, which is proposed, shown, saved and given back. -/
theorem daemon_answers_proposed : ∃ (events : List Event) (w w' w'' : World) (s s' s'' : Service)
    (p : Proposal), Run .sample (Machine.initial sampleFiles) events ⟨w, some s⟩ ∧
      p ∈ s.state.proposals ∧ Answers .sample .none s w ∧
      (save.start s).after (quietAt 3) w = (.done (.ok (), s'), w') ∧
      (ExceptT.run (Service.open .sample)).after (quietAt 4) w' = (.done (.ok s''), w'') ∧
      p ∈ s''.state.proposals := by
  obtain ⟨hiff, -, hsurvives⟩ := daemon_answers .sample .none sampleFiles
  obtain ⟨events, m, hrun, htest⟩ := exists_run (P := .sample) (m := Machine.initial sampleFiles)
    (Command.enrol (bytes "/d"))
    (fun _ m => m.service.any fun s => (s.state.proposals.all fun p => Fits p.modifiedNs) &&
      (s.state.proposals.any fun p => !p.status.terminal) &&
      (((save.start s).after (quietAt 3) m.world).1.result?.any fun r =>
        r.1.toOption.any fun _ => true) &&
      (((save.start s).after (quietAt 3) m.world).2.db.rows.all fun row => !row.interrupted) &&
      (!Overlooks ((save.start s).after (quietAt 3) m.world).2 (quietAt 4)) &&
      ((ExceptT.run (Service.open .sample)).after (quietAt 4)
        ((save.start s).after (quietAt 3) m.world).2).1.result?.any Except.isOk) (by decide +kernel)
  obtain ⟨w, service⟩ := m
  obtain ⟨s, rfl, htest⟩ := (Option.any_eq_true _ _).mp htest
  obtain ⟨⟨prog, w'⟩, hsave⟩ : ∃ r, (save.start s).after (quietAt 3) w = r := ⟨_, rfl⟩
  dsimp only at htest
  rw [hsave] at htest
  obtain ⟨⟨prog', w''⟩, hopen⟩ : ∃ r,
      (ExceptT.run (Service.open .sample)).after (quietAt 4) w' = r := ⟨_, rfl⟩
  rw [hopen] at htest
  simp only [Bool.and_eq_true] at htest
  obtain ⟨⟨⟨⟨⟨hfits, hp⟩, hsaved⟩, hrest⟩, hseen⟩, hopened⟩ := htest
  obtain ⟨p, hp, hterminal⟩ := List.any_eq_true.mp hp
  obtain ⟨⟨⟩, s', rfl, -⟩ := exists_returned (fun _ _ => true) hsaved
  obtain ⟨s'', rfl⟩ : ∃ s'', prog' = .done (.ok s'') := by
    cases prog' with
    | step u n => cases hopened
    | done r =>
      cases r with
      | error e => cases hopened
      | ok s'' => exact ⟨s'', rfl⟩
  refine ⟨events, w, w', w'', s, s', s'', p, hrun, hp, (hiff events w s hrun).mpr ?_, hsave, hopen,
    ?_⟩
  · exact fun p hp => of_decide_eq_true (List.all_eq_true.mp hfits p hp)
  · refine (hsurvives events w s hrun _ s' w' hsave).returns p hp (by simpa using hterminal) ?_
      w'.fs (quietAt 4) s'' w'' (by simpa using hseen) hopen
    exact fun row hrow _ => by simpa using List.all_eq_true.mp hrest row hrow

end SortingHat
