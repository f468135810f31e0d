import SortingHat.Service.Base

/-!
# The protocol on the socket

Requests, responses and what a request must look like, from `sortinghat-cli`.
-/

namespace SortingHat
open Posix Effect Text

def maxIpcBytes : Nat := 64 * 1024

structure Request where
  schemaVersion : Nat
  correlationId : Uuid
  action : String
  proposalId : Option Uuid
  revision : Option Nat
  argument : Option String
  deriving DecidableEq, Repr

structure Response where
  schemaVersion : Nat
  correlationId : Uuid
  ok : Bool
  state : String
  message : String
  data : Json

def Uuid.isNil (id : Uuid) : Bool := id.value == 0

def actionByte (c : Char) : Bool := ('a' ≤ c && c ≤ 'z') || c = '_'

/-- `validate_request`; every check ends in the same error. -/
def validateRequest (request : Request) : Bool :=
  request.schemaVersion = 1 && !request.correlationId.isNil && request.action ≠ "" &&
    request.action.utf8ByteSize ≤ 64 && request.action.toList.all actionByte &&
    request.argument.all fun argument => argument.utf8ByteSize ≤ 16 * 1024

def Request.json (request : Request) : Json :=
  .obj [("schema_version", .int request.schemaVersion),
    ("correlation_id", request.correlationId.json), ("action", .str request.action),
    ("proposal_id", Json.option Uuid.json request.proposalId),
    ("revision", Json.option (fun n : Nat => .int n) request.revision),
    ("argument", Json.option .str request.argument)]

def Response.json (response : Response) : Json :=
  .obj [("schema_version", .int response.schemaVersion),
    ("correlation_id", response.correlationId.json), ("ok", .bool response.ok),
    ("state", .str response.state), ("message", .str response.message), ("data", response.data)]

/-- The text of a value as it is sent. -/
def encodeJson (value : Json) : Bytes := bytes (String.ofList value.compact)

/-! ## Requests the daemon knows -/

/-- The texts an action takes. -/
inductive Verb where
  | status
  | pause
  | resume
  | scan
  | rootsList
  | rootsAdd
  | rootsRemove
  | queueList
  | proposalShow
  | proposalDestination
  | proposalChooseFolder
  | proposalRename
  | proposalApprove
  | proposalIgnore
  | rulesList
  | ruleCreate
  | agentStatus
  | agentEnable
  | agentDisable
  | undo
  deriving DecidableEq, Repr

namespace Verb

def text : Verb → String
  | status => "status"
  | pause => "pause"
  | resume => "resume"
  | scan => "scan"
  | rootsList => "roots_list"
  | rootsAdd => "roots_add"
  | rootsRemove => "roots_remove"
  | queueList => "queue_list"
  | proposalShow => "proposal_show"
  | proposalDestination => "proposal_destination"
  | proposalChooseFolder => "proposal_choose_folder"
  | proposalRename => "proposal_rename"
  | proposalApprove => "proposal_approve"
  | proposalIgnore => "proposal_ignore"
  | rulesList => "rules_list"
  | ruleCreate => "rule_create"
  | agentStatus => "agent_status"
  | agentEnable => "agent_enable"
  | agentDisable => "agent_disable"
  | undo => "undo"

def all : List Verb :=
  [status, pause, resume, scan, rootsList, rootsAdd, rootsRemove, queueList, proposalShow,
    proposalDestination, proposalChooseFolder, proposalRename, proposalApprove, proposalIgnore,
    rulesList, ruleCreate, agentStatus, agentEnable, agentDisable, undo]

def ofText? (text : String) : Option Verb := all.find? fun action => action.text = text

theorem ofText?_text (action : Verb) : ofText? action.text = some action := by
  cases action <;> decide

end Verb

end SortingHat
