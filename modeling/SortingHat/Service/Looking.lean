import SortingHat.Effect.Monitor
import SortingHat.Run

/-!
# Requests that only look

Every request but `approve` and `undo`, and every open, leaves the files to others: each of
its steps leaves them as it finds them.

* `Tick.Sees`: such a step, whatever the others have done before it;
* `OnlySees`: a request of such steps;
* `Call.only_sees`, `open_only_sees`: which they are.
-/

namespace SortingHat
open Posix Effect Text

/-- The files are left as they were, or as the others have made them. -/
def Tick.Sees (t : Tick) (fs fs' : FileSystem) : Prop := fs' = fs ∨ fs' = t.found fs

/-- The files are left to others at each step. -/
abbrev OnlySees {α : Type} (x : ServiceM α) : Prop := EachS (fun t w w' => t.Sees w.fs w'.fs) x

section
variable {α δ : Type} {P : Platform}

/-! ## Calls on the files -/

theorem sees_lookWith (f : Tick → FileSystem → Except Errno α) : EachE Tick.Sees (lookWith f) :=
  Prog.Each.atomic fun _ _ => .inr rfl

theorem sees_look (f : FileSystem → Except Errno α) : EachE Tick.Sees (look f) := sees_lookWith _

theorem sees_sys {x : IoM α} (h : EachE Tick.Sees x) : EachE Tick.Sees (sys x) := eachE_recast _ h

theorem sees_identity (path : Bytes) : EachE Tick.Sees (Identity.read path) := by
  unfold Identity.read
  apply eachE_bind (sees_sys (sees_look _))
  intro found
  apply eachE_bind (eachE_failIf _ _)
  intro _
  exact eachE_bind (eachE_failIf _ _) fun _ => eachE_pure _

theorem sees_sample (tracker : StabilityTracker) (path : Bytes) (settleNs : Int) :
    EachE Tick.Sees (tracker.sample path settleNs) := by
  unfold StabilityTracker.sample
  apply eachE_bind (sees_identity path)
  intro identity
  apply eachE_bind
  · exact Prog.Each.atomic fun _ _ => .inl rfl
  · exact fun now => eachE_pure _

theorem sees_openBeneath (root : Fd) (relative : Bytes) (directory : Bool) :
    EachE Tick.Sees (openBeneath root relative directory) := by
  unfold openBeneath
  split
  · exact eachE_throw _
  · exact sees_sys (sees_look _)

theorem sees_openAt (parent : Fd) (name : Bytes) : EachE Tick.Sees (openAt parent name) :=
  sees_sys (sees_look _)

theorem sees_identityFd (fd : Fd) : EachE Tick.Sees (identityFd fd) := by
  unfold identityFd
  apply eachE_bind (sees_sys (sees_look _))
  intro found
  apply eachE_bind (eachE_failIf _ _)
  intro _
  exact eachE_bind (eachE_failIf _ _) fun _ => eachE_pure _

theorem sees_deviceFd (fd : Fd) : EachE Tick.Sees (deviceFd fd) := by
  unfold deviceFd
  exact eachE_bind (sees_sys (sees_look _)) fun _ => eachE_pure _

theorem sees_fsync : EachE Tick.Sees fsync := sees_sys (sees_look _)

theorem sees_hashFrom (fd : Fd) (fuel : Nat) (hashed : Bytes) :
    EachE Tick.Sees (hashFrom fd fuel hashed) := by
  induction fuel generalizing hashed with
  | zero => exact eachE_pure _
  | succ fuel ih =>
    unfold hashFrom
    apply eachE_bind (sees_sys (sees_lookWith _))
    intro chunk
    split
    · exact eachE_pure _
    · exact ih _

theorem sees_sha256File (fd : Fd) : EachE Tick.Sees (sha256File P fd) := by
  unfold sha256File
  exact eachE_bind (sees_hashFrom fd _ _) fun _ => eachE_pure _

theorem sees_sha256 (path : Bytes) : EachE Tick.Sees (sha256 P path) := by
  unfold sha256
  exact eachE_bind (sees_sys (sees_look _)) fun fd => sees_sha256File fd

theorem sees_destinationExists (destination : Bytes) :
    EachE Tick.Sees (destinationExistsCaseFolded P destination) := by
  unfold destinationExistsCaseFolded
  apply eachE_bind (eachE_orFail _ _)
  intro name
  apply eachE_bind (eachE_orFail _ _)
  intro parent
  exact eachE_bind (sees_sys (sees_look _)) fun _ => eachE_pure _

theorem sees_sniffMime (path : Bytes) : EachE Tick.Sees (sniffMime path) := by
  unfold sniffMime
  apply eachE_bind
  · apply eachE_observe
    apply eachE_bind (sees_sys (sees_look _))
    exact fun fd => sees_sys (sees_lookWith _)
  · exact fun found => eachE_pure _

theorem sees_moveWarning (source destination : Bytes) :
    EachE Tick.Sees (moveWarning source destination) := by
  unfold moveWarning
  apply eachE_bind (sees_identity source)
  intro identity
  apply eachE_bind (eachE_orFail _ _)
  intro parent
  exact eachE_bind (sees_sys (sees_look _)) fun _ => eachE_pure _

-- the length of what is sent to the agent is not computed here
seal Json.byteLength in
theorem sees_classify (executable : Option String) (request : AgentRequest) :
    EachE Tick.Sees (classify P executable request) := by
  unfold classify
  apply eachE_bind (eachE_orFail _ _)
  intro _
  apply eachE_bind (eachE_failIf _ _)
  intro _
  apply eachE_bind
  · exact Prog.Each.atomic fun _ _ => .inr rfl
  intro child
  cases child with
  | notStarted => exact eachE_throw _
  | timedOut => exact eachE_throw _
  | exited success stdout =>
    dsimp only
    split
    · exact eachE_pure _
    · exact eachE_throw _

theorem sees_verifyRecoveryDestination (destination : Bytes) (proposal : Proposal)
    (expected : Option String) :
    EachE Tick.Sees (verifyRecoveryDestination P destination proposal expected) := by
  unfold verifyRecoveryDestination
  apply eachE_bind (eachE_observe (sees_identity destination))
  intro found
  split
  · exact eachE_pure _
  split
  · exact eachE_pure _
  split
  · exact eachE_bind (eachE_observe (sees_sha256 destination)) fun _ => eachE_pure _
  · exact eachE_pure _

theorem sees_recoveryWarning (entry : Journal.Entry) (proposal : Proposal) :
    EachE Tick.Sees (recoveryWarning P entry proposal) := by
  unfold recoveryWarning
  apply eachE_bind (eachE_observe (sees_identity _))
  intro found
  exact eachE_bind (sees_verifyRecoveryDestination _ _ _) fun _ => eachE_pure _

theorem sees_sourceAbsent (path : Bytes) : EachE Tick.Sees (sourceAbsent path) := by
  unfold sourceAbsent
  apply eachE_bind (eachE_observe (sees_look _))
  intro found
  split
  · exact eachE_pure _
  · exact eachE_pure _

/-! ## Helpers of the service -/

theorem onlySees_ofFs {x : FsM α} (h : EachE Tick.Sees x) : OnlySees (ofFs x) :=
  eachS_embed _ (Prog.Each.inPart h fun _ _ _ hs => hs)

theorem onlySees_ofIo {x : IoM α} (h : EachE Tick.Sees x) : OnlySees (ofIo x) :=
  eachS_embed _ (Prog.Each.inPart h fun _ _ _ hs => hs)

/-- Nothing that is done to the journal is done to the files. -/
theorem onlySees_ofJournal (x : Journal.JournalM α) : OnlySees (ofJournal x) :=
  eachS_embed _ (Prog.Each.inPart (Prog.Each.any _) fun _ _ _ _ => .inl rfl)

theorem onlySees_draw : OnlySees (draw P) :=
  eachS_embed _ (Prog.Each.inPart (Prog.Each.any _) fun _ _ _ _ => .inl rfl)

theorem onlySees_getState : OnlySees getState := eachS_bind eachS_get fun _ => eachS_pure _

theorem onlySees_modifyState (f : PersistentState → PersistentState) : OnlySees (modifyState f) :=
  eachS_modify _

theorem onlySees_check (r : Except ServiceError α) : OnlySees (check r) := by
  cases r with
  | ok a => exact eachS_pure a
  | error e => exact eachS_throw e

theorem onlySees_proposalAt (index : Nat) : OnlySees (proposalAt index) :=
  eachS_bind onlySees_getState fun _ => eachS_orFail _ _

theorem onlySees_requireDirectory (path : Bytes) : OnlySees (requireDirectory path) :=
  eachS_bind (onlySees_ofIo (sees_look _)) fun _ => eachS_failIf _ _

theorem onlySees_moveWarning (source destination : Bytes) :
    OnlySees (moveWarning? source destination) :=
  eachS_bind (onlySees_ofFs (eachE_observe (sees_moveWarning _ _))) fun _ => eachS_pure _

theorem onlySees_save : OnlySees save := by
  unfold save
  have htouch : OnlySees (ofIo touch) := onlySees_ofIo (sees_look _)
  apply eachS_bind onlySees_getState
  intro state
  apply eachS_bind (eachS_failIf _ _)
  intro _
  apply eachS_bind htouch
  intro _
  apply eachS_bind htouch
  intro _
  apply eachS_bind htouch
  intro _
  apply eachS_bind
  · exact eachS_embed _ (Prog.Each.inPart (Prog.Each.any _) fun _ _ _ _ => .inl rfl)
  intro _
  exact eachS_bind htouch fun _ => htouch

theorem onlySees_retention : OnlySees enforceJournalRetention :=
  eachS_bind (onlySees_ofJournal _) fun _ => eachS_pure _

theorem onlySees_finish (index revision : Nat) (status : Status) :
    OnlySees (finish index revision status) := by
  unfold finish
  apply eachS_bind (onlySees_modifyState _)
  intro _
  apply eachS_bind (onlySees_proposalAt index)
  intro result
  apply eachS_bind (onlySees_modifyState _)
  intro _
  apply eachS_bind onlySees_retention
  intro _
  exact eachS_bind onlySees_save fun _ => eachS_pure _

/-! ## Requests -/

theorem onlySees_addRoot (path : Bytes) (watched destination : Bool) :
    OnlySees (addRoot P path watched destination) := by
  unfold addRoot
  apply eachS_bind onlySees_getState
  intro state
  apply eachS_bind (eachS_failIf _ _)
  intro _
  apply eachS_bind (onlySees_requireDirectory path)
  intro _
  apply eachS_bind (onlySees_ofIo (sees_look _))
  intro canonical
  apply eachS_bind (eachS_orFail _ _)
  intro display
  apply eachS_bind (eachS_failIf _ _)
  intro _
  apply eachS_bind (onlySees_ofFs (sees_sys (sees_look _)))
  intro _
  apply eachS_bind onlySees_draw
  intro id
  apply eachS_bind (onlySees_modifyState _)
  intro _
  exact eachS_bind onlySees_save fun _ => eachS_pure _

theorem onlySees_removeRoot (id : Uuid) : OnlySees (removeRoot id) := by
  unfold removeRoot
  apply eachS_bind onlySees_getState
  intro state
  apply eachS_bind (eachS_failIf _ _)
  intro _
  apply eachS_bind (onlySees_modifyState _)
  intro _
  exact eachS_bind (eachS_failIf _ _) fun _ => onlySees_save

theorem onlySees_createRule (id : Uuid) (priority : Int) :
    OnlySees (createRuleFromProposal P id priority) := by
  unfold createRuleFromProposal
  apply eachS_bind onlySees_getState
  intro state
  apply eachS_bind (eachS_failIf _ _)
  intro _
  apply eachS_bind (eachS_orFail _ _)
  intro proposal
  apply eachS_bind (eachS_orFail _ _)
  intro destination
  apply eachS_bind (onlySees_check _)
  intro source
  apply eachS_bind (eachS_orFail _ _)
  intro extension
  apply eachS_bind onlySees_draw
  intro ruleId
  apply eachS_bind (onlySees_check _)
  intro _
  apply eachS_bind (onlySees_modifyState _)
  intro _
  exact eachS_bind onlySees_save fun _ => eachS_pure _

theorem onlySees_chooseDestination (id : Uuid) (revision : Nat) (rootId : Uuid)
    (directory : String) : OnlySees (chooseDestination id revision rootId directory) := by
  unfold chooseDestination
  apply eachS_bind (onlySees_check _)
  intro _
  apply eachS_bind onlySees_getState
  intro state
  apply eachS_bind (eachS_orFail _ _)
  intro root
  apply eachS_bind (onlySees_requireDirectory _)
  intro _
  apply eachS_bind (onlySees_check _)
  intro index
  apply eachS_bind (onlySees_proposalAt index)
  intro proposal
  apply eachS_bind (onlySees_check _)
  intro relative
  apply eachS_bind (eachS_orFail _ _)
  intro sourceName
  apply eachS_bind (onlySees_check _)
  intro sourcePath
  apply eachS_bind (onlySees_moveWarning _ _)
  intro warning
  apply eachS_bind (onlySees_ofJournal _)
  intro entry
  apply eachS_bind (onlySees_modifyState _)
  intro _
  apply eachS_bind (onlySees_proposalAt index)
  intro result
  exact eachS_bind onlySees_save fun _ => eachS_pure _

theorem onlySees_chooseDestinationPath (id : Uuid) (revision : Nat) (folder : Bytes) :
    OnlySees (chooseDestinationPath P id revision folder) := by
  unfold chooseDestinationPath
  apply eachS_bind (onlySees_requireDirectory folder)
  intro _
  apply eachS_bind (onlySees_ofIo (sees_look _))
  intro canonical
  apply eachS_bind onlySees_getState
  intro state
  apply eachS_bind
  · cases (state.candidates canonical).head? with
    | some root => exact eachS_pure root
    | none => exact onlySees_addRoot _ _ _
  intro root
  apply eachS_bind (eachS_orFail _ _)
  intro relative
  apply eachS_bind
  · split
    · exact eachS_pure _
    · exact eachS_orFail _ _
  exact fun directory => onlySees_chooseDestination _ _ _ _

theorem onlySees_rename (id : Uuid) (revision : Nat) (name : String) :
    OnlySees (renameProposal id revision name) := by
  unfold renameProposal
  apply eachS_bind (eachS_failIf _ _)
  intro _
  apply eachS_bind (eachS_orFail _ _)
  intro fileName
  apply eachS_bind onlySees_getState
  intro state
  apply eachS_bind (onlySees_check _)
  intro index
  apply eachS_bind (onlySees_proposalAt index)
  intro proposal
  apply eachS_bind (eachS_orFail _ _)
  intro choice
  apply eachS_bind (eachS_orFail _ _)
  intro root
  apply eachS_bind (onlySees_ofJournal _)
  intro entry
  apply eachS_bind (onlySees_modifyState _)
  intro _
  apply eachS_bind (onlySees_proposalAt index)
  intro result
  exact eachS_bind onlySees_save fun _ => eachS_pure _

theorem onlySees_ignore (id : Uuid) (revision : Nat) : OnlySees (ignore id revision) := by
  unfold ignore
  apply eachS_bind onlySees_getState
  intro state
  apply eachS_bind (onlySees_check _)
  intro index
  exact eachS_bind (onlySees_ofJournal _) fun entry => onlySees_finish _ _ _

/-! ## Scans -/

theorem onlySees_walkPending (root : Bytes) (directories : Nat) (pending : List (Bytes × Nat))
    (result : List Bytes) : OnlySees (walkPending root directories pending result) := by
  induction directories generalizing pending result with
  | zero =>
    cases pending with
    | nil => exact eachS_pure _
    | cons entry pending => exact eachS_throw _
  | succ directories ih =>
    cases pending with
    | nil => exact eachS_pure _
    | cons entry pending =>
      unfold walkPending
      apply eachS_bind (eachS_failIf _ _)
      intro _
      apply eachS_bind (onlySees_ofIo (sees_look _))
      intro entries
      exact eachS_bind (onlySees_check _) fun next => ih _ _

seal classify in
theorem onlySees_agentOrFallback (state : PersistentState) (facts : FileFacts) (size : Nat)
    (reason provenance : String) :
    OnlySees (agentOrFallback P state facts size reason provenance) := by
  unfold agentOrFallback
  split
  · exact eachS_pure _
  split
  · exact eachS_pure _
  dsimp only
  split
  · exact eachS_pure _
  apply eachS_bind onlySees_draw
  intro correlationId
  apply eachS_bind (onlySees_ofIo (eachE_observe (sees_classify _ _)))
  intro answer
  split
  · exact eachS_pure _
  split
  · exact eachS_pure _
  · exact eachS_pure _

theorem onlySees_propose (root : Root) (relative : Bytes) (identity : Identity) :
    OnlySees (propose P root relative identity) := by
  unfold propose
  apply eachS_bind (onlySees_ofFs (sees_sniffMime _))
  intro mime
  apply eachS_bind onlySees_getState
  intro state
  apply eachS_bind (onlySees_check _)
  intro ruled
  apply eachS_bind
  · cases ruled with
    | destination destination ruleIds reason => exact eachS_pure _
    | tie _ _ reason => exact onlySees_agentOrFallback _ _ _ _ _
    | abstain reason => exact onlySees_agentOrFallback _ _ _ _ _
  intro decision
  apply eachS_bind
  · split
    · exact eachS_pure _
    · exact onlySees_moveWarning _ _
  intro warning
  apply eachS_bind onlySees_draw
  intro id
  apply eachS_bind (onlySees_ofJournal _)
  intro _
  exact eachS_bind (onlySees_modifyState _) fun _ => eachS_pure _

theorem onlySees_consider (root : Root) (relative : Bytes) :
    OnlySees (consider P root relative) := by
  unfold consider
  apply eachS_bind onlySees_getState
  intro state
  dsimp only
  split
  · exact eachS_pure _
  split
  · exact eachS_pure _
  apply eachS_bind
  · unfold sampleStability
    apply eachS_bind eachS_get
    intro service
    apply eachS_bind (onlySees_ofFs (sees_sample _ _ _))
    intro sampled
    exact eachS_bind (eachS_modify _) fun _ => eachS_pure _
  intro stable
  split
  · exact eachS_pure _
  apply eachS_bind (onlySees_ofFs (sees_identity _))
  intro identity
  split
  · exact eachS_pure _
  · exact onlySees_propose root relative identity

theorem onlySees_stopIfFull : OnlySees stopIfFull := by
  unfold stopIfFull
  apply eachS_bind onlySees_getState
  intro state
  split
  · apply eachS_bind (onlySees_modifyState _)
    intro _
    exact eachS_bind onlySees_save fun _ => eachS_throw _
  · exact eachS_pure _

theorem onlySees_scanOnce : OnlySees (scanOnce P) := by
  unfold scanOnce
  apply eachS_bind onlySees_getState
  intro state
  split
  · exact eachS_pure _
  apply eachS_bind onlySees_stopIfFull
  intro _
  apply eachS_bind
  · apply eachS_foldlM
    intro created root
    apply eachS_bind (onlySees_walkPending _ _ _ _)
    intro files
    apply eachS_foldlM
    intro created relative
    apply eachS_bind onlySees_stopIfFull
    intro _
    exact eachS_bind (onlySees_consider root relative) fun _ => eachS_pure _
  intro created
  apply eachS_bind
  · split
    · exact onlySees_save
    · exact eachS_pure _
  exact fun _ => eachS_pure _

/-! ## The first halves of the moves -/

theorem onlySees_openParent (rootFd : Fd) (rootPath relative : Bytes) :
    OnlySees (openParent rootFd rootPath relative) := by
  unfold openParent
  split
  · exact onlySees_ofFs (sees_openBeneath _ _ _)
  · exact onlySees_ofFs (sees_sys (sees_look _))

theorem onlySees_openFolder (rootPath : Bytes) (directory : String) :
    OnlySees (openFolder rootPath directory) := by
  unfold openFolder
  apply eachS_bind (onlySees_ofFs (sees_sys (sees_look _)))
  intro rootFd
  split
  · exact onlySees_ofFs (sees_sys (sees_look _))
  · exact onlySees_ofFs (sees_openBeneath _ _ _)

theorem onlySees_approveChecks (id : Uuid) (revision : Nat) :
    OnlySees (approveChecks P id revision) := by
  unfold approveChecks
  apply eachS_bind onlySees_getState
  intro state
  apply eachS_bind (onlySees_check _)
  intro index
  apply eachS_bind (onlySees_proposalAt index)
  intro proposal
  apply eachS_bind (eachS_orFail _ _)
  intro choice
  apply eachS_bind (eachS_orFail _ _)
  intro destinationRoot
  apply eachS_bind (eachS_orFail _ _)
  intro sourceRoot
  apply eachS_bind (onlySees_check _)
  intro relative
  apply eachS_bind (onlySees_ofFs (sees_sys (sees_look _)))
  intro rootFd
  apply eachS_bind (onlySees_ofFs (sees_openBeneath _ _ _))
  intro verifiedFd
  apply eachS_bind (onlySees_openParent _ _ _)
  intro sourceParentFd
  apply eachS_bind (eachS_orFail _ _)
  intro sourceName
  apply eachS_bind (onlySees_requireDirectory _)
  intro _
  apply eachS_bind (onlySees_openFolder _ _)
  intro destinationFolderFd
  apply eachS_bind (eachS_orFail _ _)
  intro basename
  apply eachS_bind (onlySees_ofFs (sees_destinationExists _))
  intro taken
  exact eachS_bind (eachS_failIf _ _) fun _ => eachS_pure _

theorem onlySees_undoChecks (id : Uuid) (revision : Nat) : OnlySees (undoChecks P id revision) := by
  unfold undoChecks
  apply eachS_bind onlySees_getState
  intro state
  apply eachS_bind (onlySees_check _)
  intro index
  apply eachS_bind (onlySees_proposalAt index)
  intro proposal
  apply eachS_bind (eachS_failIf _ _)
  intro _
  apply eachS_bind (onlySees_check _)
  intro source
  apply eachS_bind (onlySees_check _)
  intro destination
  apply eachS_bind
  · exact eachS_bind (onlySees_ofIo (eachE_observe (sees_look _))) fun _ => eachS_pure _
  intro present
  apply eachS_bind (eachS_failIf _ _)
  intro _
  apply eachS_bind (onlySees_ofFs (sees_destinationExists _))
  intro taken
  apply eachS_bind (eachS_failIf _ _)
  intro _
  apply eachS_bind (onlySees_check _)
  intro relative
  apply eachS_bind (eachS_orFail _ _)
  intro sourceRoot
  apply eachS_bind (eachS_orFail _ _)
  intro choice
  apply eachS_bind (eachS_orFail _ _)
  intro destinationRoot
  apply eachS_bind (onlySees_ofFs (sees_sys (sees_look _)))
  intro sourceRootFd
  apply eachS_bind (onlySees_openParent _ _ _)
  intro sourceParentFd
  apply eachS_bind (onlySees_openFolder _ _)
  intro destinationParentFd
  apply eachS_bind (onlySees_ofFs (sees_deviceFd _))
  intro sourceDevice
  apply eachS_bind (onlySees_ofFs (sees_deviceFd _))
  intro destinationDevice
  exact eachS_bind (eachS_failIf _ _) fun _ => eachS_pure _

/-! ## Which requests these are -/

/-- The requests that move a file. -/
def Call.moves : Call → Bool
  | .approve _ _ | .undo _ _ => true
  | _ => false

/-- **Every request but the two that move a file leaves the files to others.** -/
theorem Call.only_sees {call : Call} (h : call.moves = false) : OnlySees (call.perform P) := by
  cases call with
  | setPaused paused => exact eachS_bind (onlySees_modifyState _) fun _ => onlySees_save
  | configureMetadataAgent executable fixedArgs =>
    apply eachS_bind _ fun _ => eachS_pure _
    apply eachS_bind (eachS_failIf _ _)
    intro _
    apply eachS_bind (onlySees_modifyState _)
    intro _
    apply eachS_bind onlySees_save
    intro _
    exact eachS_bind onlySees_getState fun _ => eachS_pure _
  | disableAgent =>
    apply eachS_bind _ fun _ => eachS_pure _
    apply eachS_bind (onlySees_modifyState _)
    intro _
    apply eachS_bind onlySees_save
    intro _
    exact eachS_bind onlySees_getState fun _ => eachS_pure _
  | addRoot path watched destination =>
    exact eachS_bind (onlySees_addRoot path watched destination) fun _ => eachS_pure _
  | removeRoot id => exact onlySees_removeRoot id
  | createRuleFromProposal id priority =>
    exact eachS_bind (onlySees_createRule id priority) fun _ => eachS_pure _
  | scanOnce => exact eachS_bind onlySees_scanOnce fun _ => eachS_pure _
  | chooseDestination id revision rootId directory =>
    exact eachS_bind (onlySees_chooseDestination id revision rootId directory) fun _ => eachS_pure _
  | chooseDestinationPath id revision folder =>
    exact eachS_bind (onlySees_chooseDestinationPath id revision folder) fun _ => eachS_pure _
  | renameProposal id revision name =>
    exact eachS_bind (onlySees_rename id revision name) fun _ => eachS_pure _
  | ignore id revision => exact eachS_bind (onlySees_ignore id revision) fun _ => eachS_pure _
  | approve id revision => cases h
  | undo id revision => cases h

theorem onlySees_recoverEntry (entry : Journal.Entry) : OnlySees (recoverEntry P entry) := by
  unfold recoverEntry
  apply eachS_bind
  · split
    · unfold moveEvidence
      apply eachS_bind (onlySees_ofIo (sees_sourceAbsent _))
      intro absent
      apply eachS_bind onlySees_getState
      intro state
      apply eachS_bind
      · split
        · exact onlySees_ofFs (sees_verifyRecoveryDestination _ _ _)
        · exact eachS_pure _
      exact fun verified => eachS_pure _
    · exact eachS_pure _
  intro done
  split
  · exact eachS_bind (onlySees_ofJournal _) fun completed => onlySees_modifyState _
  split
  · unfold flagEntry
    apply eachS_bind (onlySees_ofJournal _)
    intro updated
    apply eachS_bind (onlySees_modifyState _)
    intro _
    apply eachS_bind onlySees_getState
    intro state
    split
    · exact eachS_bind (onlySees_ofFs (sees_recoveryWarning _ _)) fun _ => onlySees_modifyState _
    · exact eachS_pure _
  · exact eachS_pure _

/-- **Recovery leaves the files to others too.** -/
theorem open_only_sees : EachE (fun t w w' => t.Sees w.fs w'.fs) (Service.open P) := by
  have hstore : ∀ {δ α : Type} (x : Fallible Tick (Option StateFile) δ α),
      EachE (fun t w w' => t.Sees w.fs w'.fs) (inPart World.store x) := fun x =>
    Prog.Each.inPart (Prog.Each.any _) fun _ _ _ _ => .inl rfl
  unfold Service.open
  apply eachE_bind
  · exact eachE_recast _ (Prog.Each.inPart (sees_look _) fun _ _ _ hs => hs)
  intro _
  apply eachE_bind (hstore _)
  intro state
  unfold Service.openWith
  apply eachE_bind
  · exact eachE_recast _ (Prog.Each.inPart (Prog.Each.any _) fun _ _ _ _ => .inl rfl)
  intro _
  apply eachE_bind _ fun _ => eachE_pure _
  apply eachE_within
  unfold Service.settleIn
  apply eachS_bind onlySees_retention
  intro _
  apply eachS_bind (onlySees_modifyState _)
  intro _
  unfold recoverWithoutGuessing
  apply eachS_bind (onlySees_ofJournal _)
  intro entries
  exact eachS_bind (eachS_forM onlySees_recoverEntry _) fun _ => onlySees_save

end
end SortingHat
