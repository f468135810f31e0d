import SortingHat.Journal.Program
import SortingHat.Fs
import SortingHat.Agent
import SortingHat.Text.Base64

/-!
# The service's state and its helpers

What every request of `sortinghat-service` is written with: the running service,
its errors, paths of proposals, `save` and the two retention policies.
-/

namespace SortingHat
open Posix Effect Text

inductive ServiceError where
  | fs (e : FsError)
  | journal (e : Journal.JournalError)
  | io (e : Errno)
  | malformedState
  | limit
  | notFound
  | revisionConflict
  | destinationRequired
  | collision
  | unsafePath
  deriving DecidableEq, Repr

/-- A running service. What is in it is lost at a crash. -/
structure Service where
  state : PersistentState
  stability : String → StabilityTracker

abbrev ServiceM := Action Tick World Service ServiceError

def ofFs {α : Type} (x : FsM α) : ServiceM α := embed ServiceError.fs (inPart World.files x)

def ofIo {α : Type} (x : IoM α) : ServiceM α := embed ServiceError.io (inPart World.files x)

def ofJournal {α : Type} (x : Journal.JournalM α) : ServiceM α :=
  embed ServiceError.journal (inPart World.journal x)

/-- A fresh id. -/
def draw (P : Platform) : ServiceM Uuid := embed id (inPart World.ids (newV4 P))

def getState : ServiceM PersistentState := do
  let service ← get
  return service.state

def modifyState (f : PersistentState → PersistentState) : ServiceM Unit :=
  modify fun service => { service with state := f service.state }

section
variable {A : Tick → Prop} {E : ServiceError → Service → World → Prop} {K : World → Prop}
  {s : Service} {w : World}

theorem wpS_getState {Q : PersistentState → Service → World → Prop} :
    wpS A getState Q E K s w ↔ Q s.state s w := Iff.rfl

theorem wpS_modifyState {f : PersistentState → PersistentState}
    {Q : Unit → Service → World → Prop} :
    wpS A (modifyState f) Q E K s w ↔ Q () { s with state := f s.state } w := Iff.rfl

end

/-- `self.state.proposals[index]`, changed in place. -/
def modifyProposal (index : Nat) (f : Proposal → Proposal) : ServiceM Unit :=
  modifyState fun state => { state with proposals := state.proposals.modify index f }

/-! ## Names and paths -/

def encodeRelative (path : Bytes) : String := Base64.encode path

def decodeRelative (value : String) : Except ServiceError Bytes :=
  match Base64.decode value with
  | none => .error .malformedState
  | some path =>
    match validateRelative path with
    | .error _ => .error .unsafePath
    | .ok () => .ok path

def displayPath (path : Bytes) : String :=
  String.ofList (((toStringLossy path).toList.flatMap escapeDefault).take 4096)

def proposalIdentity (proposal : Proposal) : Identity :=
  { device := proposal.device, inode := proposal.inode, size := proposal.size,
    modifiedNs := proposal.modifiedNs }

/-- The first root with this id that satisfies `p`. -/
def PersistentState.findRoot (state : PersistentState) (id : Uuid) (p : Root → Bool) : Option Root :=
  state.roots.find? fun root => root.id = id && p root

def PersistentState.findProposal (state : PersistentState) (id : Uuid) : Option Proposal :=
  state.proposals.find? fun proposal => proposal.id = id

def PersistentState.proposedCount (state : PersistentState) : Nat :=
  state.proposals.countP fun proposal => proposal.status = .proposed

def PersistentState.proposalIndex (state : PersistentState) (id : Uuid) (revision : Nat) :
    Except ServiceError Nat :=
  match state.proposals.findIdx? fun proposal => proposal.id = id with
  | none => .error .notFound
  | some index =>
    match state.proposals[index]? with
    | none => .error .notFound
    | some proposal => if proposal.revision ≠ revision then .error .revisionConflict else .ok index

/-- `source_path` of a proposal. -/
def PersistentState.sourcePath (state : PersistentState) (proposal : Proposal) :
    Except ServiceError Bytes := do
  match state.findRoot proposal.sourceRootId fun _ => true with
  | none => throw .unsafePath
  | some root =>
    let relative ← decodeRelative proposal.sourceRelative
    return Path.join (bytes root.path) relative

/-- The destination's name: the chosen one, or the source's. -/
def destinationBasename (proposal : Proposal) (relative : Bytes) : Option Bytes :=
  match proposal.destinationName with
  | some name => some (bytes name.text)
  | none => Path.fileName relative

/-- `destination_path` of a proposal. -/
def PersistentState.destinationPath (state : PersistentState) (proposal : Proposal) :
    Except ServiceError Bytes := do
  let relative ← decodeRelative proposal.sourceRelative
  match proposal.destination with
  | none => throw .destinationRequired
  | some choice =>
    match state.findRoot choice.rootId Root.destination with
    | none => throw .unsafePath
    | some root =>
      match destinationBasename proposal relative with
      | none => throw .unsafePath
      | some name =>
        return Path.join (Path.join (bytes root.path) (bytes choice.directory)) name

def PersistentState.destinationPathFor (state : PersistentState) (choice : DestinationChoice)
    (relative : Bytes) : Option Bytes := do
  let root ← state.findRoot choice.rootId Root.destination
  let name ← Path.fileName relative
  return Path.join (Path.join (bytes root.path) (bytes choice.directory)) name

/-- A pure check in a request. -/
def check {α : Type} (r : Except ServiceError α) : ServiceM α :=
  match r with
  | .ok a => pure a
  | .error e => throw e

/-- `fs::symlink_metadata(path)?` that must be a directory. -/
def requireDirectory (path : Bytes) : ServiceM Unit := do
  let (_, inode) ← ofIo (look fun fs => fs.stat false path)
  failIf (inode.node.entries?.isSome = false) ServiceError.unsafePath

def sameFilesystemWarning : String :=
  "Same-filesystem atomic move; undo is available if neither path changes"

def crossFilesystemWarning : String :=
  "Cross-filesystem verified copy; undo may fail if the original path becomes occupied"

/-- `move_warning`. -/
def moveWarning (source destination : Bytes) : FsM String := do
  let identity ← Identity.read source
  let parent ← orFail (Path.parent destination) FsError.unsafePath
  let (i, _) ← sys (look fun fs => fs.stat true parent)
  return if identity.device = i.device then sameFilesystemWarning else crossFilesystemWarning

/-- `move_warning(..).ok()`. -/
def moveWarning? (source destination : Bytes) : ServiceM (Option String) := do
  let r ← ofFs (observe (moveWarning source destination))
  return r.toOption

/-! ## Persistence and retention -/

/-- Calls on `state.json`. -/
abbrev StoreM := Fallible Tick (Option StateFile) Errno

/-- Install the new `state.json` by a rename. -/
def install (state : PersistentState) : StoreM Unit :=
  ExceptT.mk (Prog.atomic fun t old =>
    match t.fault with
    | some e => (.error e, old)
    | none => (.ok (), some ⟨state.bodyLength, some state⟩))

def save : ServiceM Unit := do
  let state ← getState
  failIf (state.bodyLength > maxStateBytes) ServiceError.limit
  -- the temporary file: create, write, sync
  ofIo touch
  ofIo touch
  ofIo touch
  embed ServiceError.io (inPart World.store (install state))
  -- the directory: open, sync
  ofIo touch
  ofIo touch

/-- Drop the first `remove` terminal proposals. -/
def dropTerminal : Nat → List Proposal → List Proposal
  | _, [] => []
  | 0, proposals => proposals
  | remove + 1, proposal :: proposals =>
    if proposal.status.terminal then dropTerminal remove proposals
    else proposal :: dropTerminal (remove + 1) proposals

def pruneTerminalProposals (proposals : List Proposal) : List Proposal :=
  dropTerminal (proposals.countP (fun p => p.status.terminal) - 10000) proposals

def pruneProposals : ServiceM Unit :=
  modifyState fun state => { state with proposals := pruneTerminalProposals state.proposals }

def enforceJournalRetention : ServiceM Unit := do
  let _ ← ofJournal
    (Journal.enforceRetention maxTerminalJournal maxJournalAgeSeconds maxJournalBytes)

end SortingHat
