import SortingHat.Service.Move

/-!
# Opening the service

`Service::open` reads `state.json`, opens the journal, applies retention and
then settles every interrupted entry from what the disk shows.
-/

namespace SortingHat
open Posix Effect Text

/-! ## Evidence -/

/-- Whether the destination is the recorded file: by its digest when there is
one, else by its identity. Any error is no evidence. -/
def verifyRecoveryDestination (P : Platform) (destination : Bytes) (proposal : Proposal)
    (expectedSha256 : Option String) : FsM Bool := do
  match ← observe (Identity.read destination) with
  | .error _ => return false
  | .ok identity =>
    if identity.size ≠ proposal.size then return false
    else match expectedSha256 with
      | some expected => do
        let actual ← observe (sha256 P destination)
        return actual.toOption == some expected
      | none => return identity == proposalIdentity proposal

/-- Whether there is no file at the path: only `ENOENT` says so. -/
def sourceAbsent (path : Bytes) : IoM Bool := do
  match ← observe (look fun fs => fs.stat false path) with
  | .error .NOENT => return true
  | _ => return false

def recoveryText (sourceVerified destinationVerified : Bool) : String :=
  match sourceVerified, destinationVerified with
  | true, true =>
    "Interrupted operation left verified source and destination copies; no copy was removed"
  | true, false =>
    "Interrupted operation retained the verified source; destination is absent or unverified"
  | false, true =>
    "Interrupted operation has a verified destination but source identity is unresolved"
  | false, false =>
    "Interrupted operation requires manual identity review; recovery did not guess"

def recoveryWarning (P : Platform) (entry : Journal.Entry) (proposal : Proposal) : FsM String := do
  let found ← observe (Identity.read entry.sourceToken)
  let destinationVerified ← verifyRecoveryDestination P entry.destinationToken proposal entry.sha256
  return recoveryText (found.toOption == some (proposalIdentity proposal)) destinationVerified

def restartWarning : String :=
  "Restart verified destination evidence and completed the journal"

/-! ## One entry -/

/-- Change the first proposal with this id. -/
def PersistentState.settle (state : PersistentState) (id : Uuid) (f : Proposal → Proposal) :
    PersistentState :=
  match state.proposals.findIdx? fun proposal => proposal.id = id with
  | some index => { state with proposals := state.proposals.modify index f }
  | none => state

/-- Whether the disk shows that the move of a `SourceRemoved` entry is done. -/
def moveEvidence (P : Platform) (entry : Journal.Entry) : ServiceM Bool := do
  let absent ← ofIo (sourceAbsent entry.sourceToken)
  let state ← getState
  let verified ← (match state.findProposal entry.id with
    | some proposal =>
      ofFs (verifyRecoveryDestination P entry.destinationToken proposal entry.sha256)
    | none => pure false)
  return absent && verified

def completeEntry (entry : Journal.Entry) : ServiceM Unit := do
  let completed ← ofJournal (Journal.transition entry.id entry.revision .completed)
  modifyState fun state => state.settle entry.id fun p =>
    { p with revision := completed.revision, status := .completed, warning := some restartWarning }

def flagEntry (P : Platform) (entry : Journal.Entry) : ServiceM Unit := do
  let updated ← ofJournal (Journal.transition entry.id entry.revision .needsAttention)
  modifyState fun state => state.settle entry.id fun p =>
    { p with revision := updated.revision, status := .needsAttention }
  let state ← getState
  match state.findProposal entry.id with
  | some proposal =>
    let warning ← ofFs (recoveryWarning P entry proposal)
    modifyState fun state => state.settle entry.id fun p => { p with warning := some warning }
  | none => pure ()

def recoverEntry (P : Platform) (entry : Journal.Entry) : ServiceM Unit := do
  let done ← (if entry.state = .sourceRemoved then moveEvidence P entry else pure false)
  if done then completeEntry entry
  else if entry.state.interrupted then flagEntry P entry
  else pure ()

def recoverWithoutGuessing (P : Platform) : ServiceM Unit := do
  let entries ← ofJournal Journal.nonterminal
  entries.forM (recoverEntry P)
  save

/-! ## Opening -/

/-- `state_path.exists()`: any error counts as absent. -/
def stateExists : StoreM Bool :=
  ExceptT.mk (Prog.atomic fun t file => (.ok (t.fault.isNone && file.isSome), file))

/-- The open file `state.json`. -/
def readStateFile : StoreM StateFile :=
  ExceptT.mk (Prog.atomic fun t file =>
    (match t.fault, file with
      | some e, _ => .error e
      | none, none => .error .NOENT
      | none, some file => .ok file, file))

/-- `state.json`, where it is there. -/
def readState : Fallible Tick (Option StateFile) ServiceError PersistentState := do
  let file ← recast ServiceError.io readStateFile
  failIf (file.length > maxStateBytes) ServiceError.malformedState
  -- `read_to_end`
  let file ← recast ServiceError.io readStateFile
  let state ← orFail file.content ServiceError.malformedState
  failIf (state.schemaVersion ≠ 1) ServiceError.malformedState
  return state

def loadState : Fallible Tick (Option StateFile) ServiceError PersistentState := do
  let present ← recast ServiceError.io stateExists
  if present then readState else return PersistentState.initial

/-- A service that has just been loaded. -/
def Service.fresh (state : PersistentState) : Service := ⟨state, fun _ => .default⟩

/-- Retention and recovery, on a loaded state. -/
def Service.settleIn (P : Platform) : ServiceM Unit := do
  enforceJournalRetention
  pruneProposals
  recoverWithoutGuessing P

/-- The rest of an open, on the state it has loaded. -/
def Service.openWith (P : Platform) (state : PersistentState) :
    Fallible Tick World ServiceError Service := do
  recast ServiceError.journal (inPart World.journal Journal.connect)
  let (_, service) ← (Service.settleIn P).within (Service.fresh state)
  return service

def Service.open (P : Platform) : Fallible Tick World ServiceError Service := do
  recast ServiceError.io (inPart World.files touch)
  let state ← inPart World.store loadState
  Service.openWith P state

end SortingHat
