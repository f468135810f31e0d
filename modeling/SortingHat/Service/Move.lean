import SortingHat.Service.Review

/-!
# Approve and undo

Both requests open everything they need first, then commit the intent to the
journal, then act.
-/

namespace SortingHat
open Posix Effect Text

/-- `.sortinghat-<id>.stage`. -/
def stagingName (id : Uuid) : Bytes := bytes (".sortinghat-" ++ id.toText ++ ".stage")

/-- What a move has opened before its intent is committed. -/
structure Opened where
  index : Nat
  proposal : Proposal
  sourceParentFd : Fd
  sourceName : Bytes
  destinationFolderFd : Fd
  destination : Bytes

/-- The directory that holds the relative path, opened below its root. -/
def openParent (rootFd : Fd) (rootPath relative : Bytes) : ServiceM Fd :=
  match (Path.parent relative).filter fun p => p ≠ [] with
  | some parent => ofFs (openBeneath rootFd parent true)
  | none => ofFs (openRoot rootPath)

/-- The folder a choice names, opened below its root. -/
def openFolder (rootPath : Bytes) (directory : String) : ServiceM Fd := do
  let rootFd ← ofFs (openRoot rootPath)
  if directory = "." then ofFs (openRoot rootPath)
  else ofFs (openBeneath rootFd (bytes directory) true)

/-- The first half of `approve`: everything up to the journal. The second
component is the source file itself. -/
def approveChecks (P : Platform) (id : Uuid) (revision : Nat) : ServiceM (Opened × Fd) := do
  let state ← getState
  let index ← check (state.proposalIndex id revision)
  let proposal ← proposalAt index
  let choice ← orFail proposal.destination ServiceError.destinationRequired
  let destinationRoot ← orFail (state.findRoot choice.rootId Root.destination)
    ServiceError.unsafePath
  let sourceRoot ← orFail (state.findRoot proposal.sourceRootId Root.watched)
    ServiceError.unsafePath
  let relative ← check (decodeRelative proposal.sourceRelative)
  let rootFd ← ofFs (openRoot (bytes sourceRoot.path))
  let verifiedFd ← ofFs (openBeneath rootFd relative false)
  let sourceParentFd ← openParent rootFd (bytes sourceRoot.path) relative
  let sourceName ← orFail (Path.fileName relative) ServiceError.unsafePath
  let folder := Path.join (bytes destinationRoot.path) (bytes choice.directory)
  requireDirectory folder
  let destinationFolderFd ← openFolder (bytes destinationRoot.path) choice.directory
  let basename ← orFail (destinationBasename proposal relative) ServiceError.unsafePath
  let destination := Path.join folder basename
  let taken ← ofFs (destinationExistsCaseFolded P destination)
  failIf (taken = true) ServiceError.collision
  return ({ index, proposal, sourceParentFd, sourceName, destinationFolderFd, destination },
    verifiedFd)

/-- Approved to Published on one file system. -/
def publishSame (o : Opened) (id : Uuid) (revision : Nat) (destinationName : Bytes) :
    ServiceM Nat := do
  ofFs (sameFilesystemMoveAt o.sourceParentFd o.sourceName o.destinationFolderFd destinationName
    (proposalIdentity o.proposal))
  let entry ← ofJournal (Journal.transition id revision .published)
  return entry.revision

/-- Approved to Published across file systems, the source retired last. -/
def publishCross (P : Platform) (o : Opened) (verifiedFd : Fd) (id : Uuid) (revision : Nat)
    (destinationName : Bytes) : ServiceM Nat := do
  let expected := proposalIdentity o.proposal
  let entry ← ofJournal (Journal.transition id revision .copying)
  let digest ← ofFs (verifiedStageCopyAt P verifiedFd o.destinationFolderFd (stagingName id)
    expected)
  ofJournal (Journal.setSha256 id digest)
  ofFs (publishStageAt o.destinationFolderFd (stagingName id) destinationName)
  ofFs (verifyAt P o.destinationFolderFd destinationName digest)
  let entry ← ofJournal (Journal.transition id entry.revision .published)
  ofFs (retireSourceAt P o.sourceParentFd o.sourceName expected digest)
  return entry.revision

/-- The second half of `approve`, from the intent on. -/
def approveMove (P : Platform) (o : Opened) (verifiedFd : Fd) (id : Uuid) (revision : Nat) :
    ServiceM Proposal := do
  let entry ← ofJournal (Journal.transition id revision .approved)
  modifyProposal o.index fun p => { p with revision := entry.revision }
  let destinationName ← orFail (Path.fileName o.destination) ServiceError.unsafePath
  let sourceDevice ← ofFs (deviceFd o.sourceParentFd)
  let destinationDevice ← ofFs (deviceFd o.destinationFolderFd)
  let published ←
    (if sourceDevice = destinationDevice then publishSame o id entry.revision destinationName
    else publishCross P o verifiedFd id entry.revision destinationName)
  let removed ← ofJournal (Journal.transition id published .sourceRemoved)
  let completed ← ofJournal (Journal.transition id removed.revision .completed)
  finish o.index completed.revision .completed

def approve (P : Platform) (id : Uuid) (revision : Nat) : ServiceM Proposal := do
  let (opened, verifiedFd) ← approveChecks P id revision
  approveMove P opened verifiedFd id revision

/-- `source.exists()`. -/
def pathExists (path : Bytes) : ServiceM Bool := do
  let r ← ofIo (observe (look fun fs => fs.stat true path))
  return r.toOption.isSome

/-- The first half of `undo`. The path moved from is the proposal's destination
and the path moved to its source. -/
def undoChecks (P : Platform) (id : Uuid) (revision : Nat) : ServiceM (Opened × Bytes) := do
  let state ← getState
  let index ← check (state.proposalIndex id revision)
  let proposal ← proposalAt index
  failIf (proposal.status ≠ .completed) ServiceError.revisionConflict
  let source ← check (state.sourcePath proposal)
  let destination ← check (state.destinationPath proposal)
  let present ← pathExists source
  failIf (present = true) ServiceError.collision
  let taken ← ofFs (destinationExistsCaseFolded P source)
  failIf (taken = true) ServiceError.collision
  let relative ← check (decodeRelative proposal.sourceRelative)
  let sourceRoot ← orFail (state.findRoot proposal.sourceRootId fun _ => true)
    ServiceError.unsafePath
  let choice ← orFail proposal.destination ServiceError.destinationRequired
  let destinationRoot ← orFail (state.findRoot choice.rootId fun _ => true)
    ServiceError.unsafePath
  let sourceRootFd ← ofFs (openRoot (bytes sourceRoot.path))
  let sourceParentFd ← openParent sourceRootFd (bytes sourceRoot.path) relative
  let destinationParentFd ← openFolder (bytes destinationRoot.path) choice.directory
  let sourceDevice ← ofFs (deviceFd sourceParentFd)
  let destinationDevice ← ofFs (deviceFd destinationParentFd)
  failIf (sourceDevice ≠ destinationDevice) (ServiceError.fs (.io .XDEV))
  return ({ index, proposal, sourceParentFd, sourceName := (Path.fileName relative).getD []
            destinationFolderFd := destinationParentFd, destination }, relative)

def undoMove (o : Opened) (relative : Bytes) (id : Uuid) (revision : Nat) : ServiceM Proposal := do
  let entry ← ofJournal (Journal.transition id revision .undoing)
  let destinationName ← orFail (Path.fileName o.destination) ServiceError.unsafePath
  let sourceName ← orFail (Path.fileName relative) ServiceError.unsafePath
  ofFs (sameFilesystemMoveAt o.destinationFolderFd destinationName o.sourceParentFd sourceName
    (proposalIdentity o.proposal))
  let undone ← ofJournal (Journal.transition id entry.revision .undone)
  finish o.index undone.revision .undone

def undo (P : Platform) (id : Uuid) (revision : Nat) : ServiceM Proposal := do
  let (opened, relative) ← undoChecks P id revision
  undoMove opened relative id revision

end SortingHat
