import SortingHat.Service.Base

/-!
# Scanning

`bounded_files`, `consider` and `scan_once`: from a watched tree to proposals.
-/

namespace SortingHat
open Posix Effect Text

/-! ## The bounded walk -/

inductive FileType where
  | directory
  | file
  | symlink
  | other
  deriving DecidableEq, Repr

def fileType : Option Node → FileType
  | some (.directory _) => .directory
  | some (.regular _) => .file
  | some (.symlink _) => .symlink
  | _ => .other

/-- The entries of a directory with their types. -/
def listDirectory (path : Bytes) : IoM (List (Bytes × FileType)) :=
  look fun fs => do
    let entries ← fs.readDir path
    return entries.map fun e => (e.1, fileType (fs.node? e.2))

/-- What one directory adds: directories on top of `pending`, files behind
`result`. -/
def addEntries (relative : Bytes) (depth : Nat) :
    List (Bytes × FileType) → List (Bytes × Nat) → List Bytes →
      Except ServiceError (List (Bytes × Nat) × List Bytes)
  | [], pending, result => .ok (pending, result)
  | (name, kind) :: entries, pending, result =>
    let child := Path.join relative name
    match kind with
    | .symlink | .other => addEntries relative depth entries pending result
    | .directory => addEntries relative depth entries ((child, depth + 1) :: pending) result
    | .file =>
      if result.length ≥ maxWalkFiles then .error .limit
      else addEntries relative depth entries pending (result ++ [child])

/-- The loop of `bounded_files`; the first argument is how many directories may
still be read. -/
def walkPending (root : Bytes) : Nat → List (Bytes × Nat) → List Bytes → ServiceM (List Bytes)
  | _, [], result => return result
  | 0, _ :: _, _ => throw .limit
  | directories + 1, (relative, depth) :: pending, result => do
    failIf (depth > maxWalkDepth) ServiceError.limit
    let entries ← ofIo (listDirectory (Path.join root relative))
    let (pending, result) ← check (addEntries relative depth entries pending result)
    walkPending root directories pending result

def boundedFiles (root : Bytes) : ServiceM (List Bytes) :=
  walkPending root maxWalkDirectories [([], 0)] []

/-! ## One file -/

def partialSuffixes : List String := [".part", ".partial", ".crdownload", ".download", ".tmp"]

def isPartial (path : Bytes) : Bool :=
  let name := ((Path.fileName path).map fun n => toAsciiLowercase (toStringLossy n)).getD ""
  partialSuffixes.any fun suffix => suffix.toList.isSuffixOf name.toList

/-- A byte string as text, when it is UTF-8. -/
def toStr (b : Bytes) : Option String :=
  if bytes (toStringLossy b) = b then some (toStringLossy b) else none

theorem bytes_of_toStr {b : Bytes} {s : String} (h : toStr b = some s) : bytes s = b := by
  unfold toStr at h
  split at h
  · next hb => exact Option.some.inj h ▸ hb
  · cases h

def factsFor (relative : Bytes) (rootId : Uuid) (completed : Bool) : FileFacts :=
  { extension := ((Path.extension relative).bind toStr).map toAsciiLowercase
    verifiedMime := none
    filename := ((Path.fileName relative).map toStringLossy).getD ""
    sourceRootId := rootId
    sourceDirectory := ((Path.parent relative).map toStringLossy).getD "."
    completed }

def mimeOf (prefix_ : Bytes) : Option String :=
  if (bytes "%PDF-").isPrefixOf prefix_ then some "application/pdf"
  else if [0x89, 80, 78, 71, 13, 10, 26, 10].isPrefixOf prefix_ then some "image/png"
  else if [0xFF, 0xD8, 0xFF].isPrefixOf prefix_ then some "image/jpeg"
  else if [80, 75, 3, 4].isPrefixOf prefix_ then some "application/zip"
  else none

/-- `sniff_mime`: one read of at most sixteen bytes; any error is no answer. -/
def sniffMime (path : Bytes) : FsM (Option String) := do
  let found ← observe (do
    let fd ← sys (look fun fs => fs.resolve true path)
    sys (lookWith fun t fs => fs.read fd 0 (1 + t.pick % 16)))
  return found.toOption.bind mimeOf

def sizeBucket (size : Nat) : String :=
  if size < 1024 * 1024 then "under_1_mib"
  else if size < 100 * 1024 * 1024 then "1_to_100_mib"
  else if size < 1024 * 1024 * 1024 then "100_mib_to_1_gib"
  else "1_to_4_gib"

/-- A destination, its reason and provenance, and a warning. -/
structure Decision where
  destination : Option DestinationChoice
  reason : String
  provenance : String
  warning : Option String

def agentOrFallback (P : Platform) (state : PersistentState) (facts : FileFacts) (size : Nat)
    (deterministicReason fallbackProvenance : String) : ServiceM Decision := do
  let fallback (warning : String) : Decision :=
    ⟨none, deterministicReason, fallbackProvenance, some warning⟩
  if state.agent.enabled = false then
    return fallback "No deterministic decision; metadata agent is disabled"
  else match state.agent.executable with
    | none => return fallback "Agent is enabled but unavailable; choose a destination"
    | some executable =>
      let allowedDestinationIds := (state.roots.filter Root.destination).map Root.id
      if allowedDestinationIds = [] then
        return fallback "Agent has no registered destination to select"
      else
        let correlationId ← draw P
        let answer ← ofIo (observe (classify P (some executable)
          { schemaVersion := 1, correlationId, filenameExtension := facts.extension,
            verifiedMime := facts.verifiedMime, sizeBucket := sizeBucket size,
            sourceRootId := facts.sourceRootId, allowedDestinationIds }))
        match answer with
        | .error _ => return fallback "Agent unavailable or invalid; choose a destination"
        | .ok response =>
          match response.destinationId with
          | some rootId =>
            return ⟨some ⟨rootId, "."⟩, response.reason, "agent_metadata",
              some "Agent result is a proposal and still requires approval"⟩
          | none =>
            return ⟨none, response.reason, "agent_abstain",
              some "Agent abstained; choose a destination"⟩

/-- The rule decision as a proposal's, the agent asked where the rules do not
decide. -/
def decideDestination (P : Platform) (state : PersistentState) (facts : FileFacts) (size : Nat) :
    RuleDecision → ServiceM Decision
  | .destination destination ruleIds reason =>
    return ⟨some ⟨destination.rootId, destination.directory⟩, reason,
      "rule:" ++ ((ruleIds.head?.map Uuid.toText).getD ""), none⟩
  | .tie _ _ reason => agentOrFallback P state facts size reason "deterministic_tie"
  | .abstain reason => agentOrFallback P state facts size reason "deterministic_abstain"

/-- Sample the tracker the service keeps for a path of a root. -/
def sampleStability (key : String) (absolute : Bytes) : ServiceM Bool := do
  let service ← get
  let (stable, tracker) ← ofFs ((service.stability key).sample absolute 1000000000)
  modify fun service => { service with stability := Function.update service.stability key tracker }
  return stable

/-- The physical file a proposal was made for. -/
def sameFile (identity : Identity) (proposal : Proposal) : Bool :=
  proposalIdentity proposal == identity

/-- The part of `consider` after the duplicate checks: decide, journal, push. -/
def propose (P : Platform) (root : Root) (relative : Bytes) (identity : Identity) :
    ServiceM Bool := do
  let absolute := Path.join (bytes root.path) relative
  let mime ← ofFs (sniffMime absolute)
  let facts := { factsFor relative root.id true with verifiedMime := mime }
  let state ← getState
  let ruled ← check ((evaluateRules P.glob state.rules facts).mapError fun _ => .malformedState)
  let decision ← decideDestination P state facts identity.size ruled
  let path := decision.destination.bind fun choice => state.destinationPathFor choice relative
  let warning ← (match path with
    | none => pure decision.warning
    | some path => moveWarning? absolute path)
  let id ← draw P
  let proposal : Proposal :=
    { id, revision := 1, sourceRootId := root.id, sourceRelative := encodeRelative relative
      sourceDisplay := displayPath absolute, destination := decision.destination
      destinationName := (Path.fileName relative).bind FileName.ofLossy
      destinationDisplay := path.map displayPath, reason := decision.reason
      provenance := decision.provenance, warning, status := .proposed, size := identity.size
      device := identity.device, inode := identity.inode, modifiedNs := identity.modifiedNs }
  ofJournal (Journal.create
    { id, revision := 1, state := .proposed, sourceToken := absolute
      destinationToken := path.getD [], size := identity.size, sha256 := none })
  modifyState fun state => { state with proposals := state.proposals ++ [proposal] }
  return true

def consider (P : Platform) (root : Root) (relative : Bytes) : ServiceM Bool := do
  let state ← getState
  let encoded := encodeRelative relative
  if isPartial relative then return false
  else if state.proposals.any fun p =>
      p.sourceRootId = root.id && p.sourceRelative = encoded && p.status = .proposed then
    return false
  else
    let absolute := Path.join (bytes root.path) relative
    let stable ← sampleStability (root.id.toText ++ ":" ++ encoded) absolute
    if stable = false then return false
    else
      let identity ← ofFs (Identity.read absolute)
      if state.proposals.any (sameFile identity) then return false
      else propose P root relative identity

/-! ## The scan -/

/-- Pause, because the queue is full. -/
def pauseAtLimit : ServiceM Unit := do
  modifyState fun state => { state with paused := true }
  save
  throw .limit

def stopIfFull : ServiceM Unit := do
  let state ← getState
  if state.proposedCount ≥ maxProposals then pauseAtLimit else pure ()

def scanFile (P : Platform) (root : Root) (created : Nat) (relative : Bytes) : ServiceM Nat := do
  stopIfFull
  let fresh ← consider P root relative
  return if fresh then created + 1 else created

def scanRoot (P : Platform) (created : Nat) (root : Root) : ServiceM Nat := do
  let files ← boundedFiles (bytes root.path)
  files.foldlM (scanFile P root) created

def scanOnce (P : Platform) : ServiceM Nat := do
  let state ← getState
  if state.paused then return 0
  else
    stopIfFull
    let created ← (state.roots.filter Root.watched).foldlM (scanRoot P) 0
    (if created > 0 then save else pure ())
    return created

end SortingHat
