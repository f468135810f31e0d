import SortingHat.Daemon.Protocol
import SortingHat.Service.Review
import SortingHat.Service.Move

/-!
# The daemon's requests

`dispatch` of `sortinghatd`: from a request to the response, or to the panic of `json!`.
-/

namespace SortingHat
open Posix Effect Text

structure RootAdd where
  path : Bytes
  watched : Bool
  destination : Bool

structure DestinationArg where
  rootId : Uuid
  directory : String

structure AgentArg where
  executable : String
  fixedArgs : List String

/-- What `serde_json` reads from the argument of a request. -/
structure Decoders where
  rootAdd : String → Option RootAdd
  destinationArg : String → Option DestinationArg
  agentArg : String → Option AgentArg

/-- `str::parse::<i32>`. -/
def parseI32 (text : String) : Option Int :=
  let (negative, digits) := match text.toList with
    | '-' :: rest => (true, rest)
    | '+' :: rest => (false, rest)
    | rest => (false, rest)
  if digits = [] ∨ digits.any (fun c => !c.isDigit) then none
  else
    let size := digits.foldl (fun n c => 10 * n + (c.toNat - '0'.toNat)) 0
    let value : Int := if negative then -size else size
    if -(2 ^ 31) ≤ value ∧ value < 2 ^ 31 then some value else none

/-! ## Values -/

/-- The numbers a `serde_json::Value` holds: those of `i64` and of `u64`. -/
def Fits (n : Int) : Prop := -(2 ^ 63) ≤ n ∧ n < 2 ^ 64

instance (n : Int) : Decidable (Fits n) := inferInstanceAs (Decidable (_ ∧ _))

/-- `json!` of a proposal. Its other numbers are `u64` and always fit; nothing is where
the conversion fails and `json!` panics. -/
def Proposal.value? (p : Proposal) : Option Json := if Fits p.modifiedNs then some p.json else none

/-- `json!` of a list of proposals. -/
def proposalsValue? (proposals : List Proposal) : Option Json :=
  (proposals.mapM Proposal.value?).map .arr

/-! ## Requests -/

/-- The proposals `queue_list` shows, the newest first. -/
def PersistentState.listed (state : PersistentState) : List Proposal :=
  ((state.proposals.filter fun p => p.status ≠ .ignored && p.status ≠ .undone).reverse).take 100

def requireId (request : Request) : ServiceM Uuid :=
  orFail request.proposalId ServiceError.malformedState

def requireRevision (request : Request) : ServiceM Nat :=
  orFail request.revision ServiceError.malformedState

def requireArgument (request : Request) : ServiceM String :=
  orFail request.argument ServiceError.malformedState

/-- `parse_argument`. -/
def parseArgument {α : Type} (decode : String → Option α) (request : Request) : ServiceM α := do
  let argument ← requireArgument request
  orFail (decode argument) ServiceError.malformedState

/-- The data of the response, nothing where `json!` panics. -/
def dispatchData (P : Platform) (D : Decoders) (request : Request) : Verb → ServiceM (Option Json)
  | .status => do
    let state ← getState
    return some (.obj [("paused", .bool state.paused), ("awaiting_review", .int state.proposedCount)])
  | .pause => do
    setPaused true
    return some (.obj [("paused", .bool true)])
  | .resume => do
    setPaused false
    return some (.obj [("paused", .bool false)])
  | .scan => do
    let created ← scanOnce P
    return some (.obj [("created", .int created)])
  | .rootsList => do
    let state ← getState
    return some (.arr (state.roots.map Root.json))
  | .rootsAdd => do
    let arg ← parseArgument D.rootAdd request
    let root ← addRoot P arg.path arg.watched arg.destination
    return some root.json
  | .rootsRemove => do
    let id ← requireId request
    removeRoot id
    return some .null
  | .queueList => do
    let state ← getState
    return proposalsValue? state.listed
  | .proposalShow => do
    let id ← requireId request
    let state ← getState
    let proposal ← orFail (state.findProposal id) ServiceError.notFound
    return proposal.value?
  | .proposalDestination => do
    let arg ← parseArgument D.destinationArg request
    let id ← requireId request
    let revision ← requireRevision request
    let proposal ← chooseDestination id revision arg.rootId arg.directory
    return proposal.value?
  | .proposalChooseFolder => do
    let id ← requireId request
    let revision ← requireRevision request
    let folder ← requireArgument request
    let proposal ← chooseDestinationPath P id revision (bytes folder)
    return proposal.value?
  | .proposalRename => do
    let id ← requireId request
    let revision ← requireRevision request
    let name ← requireArgument request
    let proposal ← renameProposal id revision name
    return proposal.value?
  | .proposalApprove => do
    let id ← requireId request
    let revision ← requireRevision request
    let proposal ← approve P id revision
    return proposal.value?
  | .proposalIgnore => do
    let id ← requireId request
    let revision ← requireRevision request
    let proposal ← ignore id revision
    return proposal.value?
  | .rulesList => do
    let state ← getState
    return some (.arr (state.rules.map Rule.json))
  | .ruleCreate => do
    let argument ← requireArgument request
    let priority ← orFail (parseI32 argument) ServiceError.malformedState
    let id ← requireId request
    let rule ← createRuleFromProposal P id priority
    return some rule.json
  | .agentStatus => do
    let state ← getState
    return some state.agent.json
  | .agentEnable => do
    let arg ← parseArgument D.agentArg request
    let agent ← configureMetadataAgent arg.executable arg.fixedArgs
    return some agent.json
  | .agentDisable => do
    let agent ← disableAgent
    return some agent.json
  | .undo => do
    let id ← requireId request
    let revision ← requireRevision request
    let proposal ← undo P id revision
    return proposal.value?

/-- `dispatch`: a response, or nothing when it panics. -/
def dispatch (P : Platform) (D : Decoders) (request : Request) : ServiceM (Option Response) := do
  let verb ← orFail (Verb.ofText? request.action) ServiceError.notFound
  let data ← dispatchData P D request verb
  let state ← getState
  return data.map fun data =>
    { schemaVersion := 1, correlationId := request.correlationId, ok := true
      state := if state.paused then "paused" else "running"
      message := "ok", data }

end SortingHat
