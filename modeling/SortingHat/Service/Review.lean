import SortingHat.Service.Scan

/-!
# Requests that move no file

Roots, rules, settings, and the review actions on a proposal: destination, name
and ignoring it.
-/

namespace SortingHat
open Posix Effect Text

/-! ## Configuration -/

def setPaused (paused : Bool) : ServiceM Unit := do
  modifyState fun state => { state with paused }
  save

def configureMetadataAgent (executable : String) (fixedArgs : List String) :
    ServiceM AgentSettings := do
  failIf (executable = "" ∨ executable.utf8ByteSize > 4096 ∨ fixedArgs.length > 16 ∨
    (fixedArgs.any fun argument => argument.utf8ByteSize > 1024) = true) ServiceError.limit
  modifyState fun state =>
    { state with agent :=
        { enabled := true, executable := some executable, fixedArgs, metadataOnly := true } }
  save
  let state ← getState
  return state.agent

def disableAgent : ServiceM AgentSettings := do
  modifyState fun state => { state with agent := { state.agent with enabled := false } }
  save
  let state ← getState
  return state.agent

def addRoot (P : Platform) (path : Bytes) (watched destination : Bool) : ServiceM Root := do
  let state ← getState
  failIf (state.roots.length ≥ maxRoots ∨ (watched = false ∧ destination = false))
    ServiceError.limit
  requireDirectory path
  let canonical ← ofIo (look fun fs => fs.canonicalize path)
  let display ← orFail (toStr canonical) ServiceError.unsafePath
  failIf ((state.roots.any fun root => root.path = display) = true) ServiceError.collision
  let _ ← ofFs (openRoot canonical)
  let id ← draw P
  let root : Root := { id, path := display, watched, destination }
  modifyState fun state => { state with roots := state.roots ++ [root] }
  save
  return root

def removeRoot (id : Uuid) : ServiceM Unit := do
  let state ← getState
  failIf ((state.proposals.any fun p => p.sourceRootId = id && p.status = .proposed) = true)
    ServiceError.collision
  let kept := state.roots.filter fun root => root.id ≠ id
  modifyState fun state => { state with roots := kept }
  failIf (kept.length = state.roots.length) ServiceError.notFound
  save

def createRuleFromProposal (P : Platform) (id : Uuid) (priority : Int) : ServiceM Rule := do
  let state ← getState
  failIf (state.rules.length ≥ maxRules) ServiceError.limit
  let proposal ← orFail (state.findProposal id) ServiceError.notFound
  let destination ← orFail proposal.destination ServiceError.destinationRequired
  let source ← check (decodeRelative proposal.sourceRelative)
  let extension ← orFail ((Path.extension source).bind toStr) ServiceError.unsafePath
  let ruleId ← draw P
  let rule : Rule :=
    { id := ruleId, priority, predicates := [.extension (toAsciiLowercase extension)]
      destinationRootId := destination.rootId, destinationDirectory := destination.directory }
  let _ ← check ((evaluateRules P.glob [rule] (factsFor source proposal.sourceRootId true)).mapError
    fun _ => .malformedState)
  modifyState fun state => { state with rules := state.rules ++ [rule] }
  save
  return rule

/-! ## Review -/

/-- The proposal at an index, as it is now. -/
def proposalAt (index : Nat) : ServiceM Proposal := do
  let state ← getState
  orFail state.proposals[index]? ServiceError.notFound

def chooseDestination (id : Uuid) (revision : Nat) (rootId : Uuid) (directory : String) :
    ServiceM Proposal := do
  check ((validateRelativeDirectory directory).mapError fun _ => .unsafePath)
  let state ← getState
  let root ← orFail (state.findRoot rootId Root.destination) ServiceError.unsafePath
  let folder := Path.join (bytes root.path) (bytes directory)
  requireDirectory folder
  let index ← check (state.proposalIndex id revision)
  let proposal ← proposalAt index
  let relative ← check (decodeRelative proposal.sourceRelative)
  let sourceName ← orFail (Path.fileName relative) ServiceError.unsafePath
  let destinationPath := Path.join folder sourceName
  let sourcePath ← check (state.sourcePath proposal)
  let warning ← moveWarning? sourcePath destinationPath
  let entry ← ofJournal (Journal.reviseProposal id revision destinationPath)
  modifyProposal index fun p =>
    { p with
      revision := entry.revision
      destination := some ⟨rootId, directory⟩
      destinationName := (Path.fileName destinationPath).bind FileName.ofLossy
      destinationDisplay := some (displayPath destinationPath)
      warning }
  let result ← proposalAt index
  save
  return result

/-- The destination roots a folder lies in, the longest path first. -/
def PersistentState.candidates (state : PersistentState) (folder : Bytes) : List Root :=
  (state.roots.filter fun root =>
    root.destination && Path.startsWith folder (bytes root.path)).insertionSort
      fun a b => b.path.utf8ByteSize ≤ a.path.utf8ByteSize

def chooseDestinationPath (P : Platform) (id : Uuid) (revision : Nat) (folder : Bytes) :
    ServiceM Proposal := do
  requireDirectory folder
  let canonical ← ofIo (look fun fs => fs.canonicalize folder)
  let state ← getState
  let root ← (match (state.candidates canonical).head? with
    | some root => pure root
    | none => addRoot P canonical false true)
  let relative ← orFail (Path.stripPrefix canonical (bytes root.path)) ServiceError.unsafePath
  let directory ←
    (if relative = [] then pure "." else orFail (toStr relative) ServiceError.unsafePath)
  chooseDestination id revision root.id directory

def renameProposal (id : Uuid) (revision : Nat) (name : String) : ServiceM Proposal := do
  failIf (name.utf8ByteSize > 255) ServiceError.unsafePath
  let fileName ← orFail (FileName.ofString? name) ServiceError.unsafePath
  let state ← getState
  let index ← check (state.proposalIndex id revision)
  let proposal ← proposalAt index
  let choice ← orFail proposal.destination ServiceError.destinationRequired
  let root ← orFail (state.findRoot choice.rootId Root.destination) ServiceError.unsafePath
  let destinationPath :=
    Path.join (Path.join (bytes root.path) (bytes choice.directory)) (bytes name)
  let entry ← ofJournal (Journal.reviseProposal id revision destinationPath)
  modifyProposal index fun p =>
    { p with
      revision := entry.revision
      destinationName := some fileName
      destinationDisplay := some (displayPath destinationPath) }
  let result ← proposalAt index
  save
  return result

/-- What `ignore`, `approve` and `undo` end with: the finished proposal, then
retention in both stores, then `save`. -/
def finish (index : Nat) (revision : Nat) (status : Status) : ServiceM Proposal := do
  modifyProposal index fun p => { p with revision, status }
  let result ← proposalAt index
  pruneProposals
  enforceJournalRetention
  save
  return result

def ignore (id : Uuid) (revision : Nat) : ServiceM Proposal := do
  let state ← getState
  let index ← check (state.proposalIndex id revision)
  let entry ← ofJournal (Journal.transition id revision .ignored)
  finish index entry.revision .ignored

end SortingHat
