import SortingHat.World

/-!
# The metadata agent

`sortinghat-agent`: one request to a child process, its answer checked before it
is used.
-/

namespace SortingHat
open Posix Effect Text

def maxMetadataBytes : Nat := 16 * 1024
def maxOutputBytes : Nat := 16 * 1024

structure AgentRequest where
  schemaVersion : Nat
  correlationId : Uuid
  filenameExtension : Option String
  verifiedMime : Option String
  sizeBucket : String
  sourceRootId : Uuid
  allowedDestinationIds : List Uuid

inductive AgentError where
  | disabled
  | requestTooLarge
  | process
  | malformed
  | unregisteredDestination
  | timeout
  | contentDenied
  deriving DecidableEq, Repr

def AgentRequest.json (request : AgentRequest) : Json :=
  .obj [("schema_version", .int request.schemaVersion),
    ("correlation_id", request.correlationId.json),
    ("filename_extension", Json.option .str request.filenameExtension),
    ("verified_mime", Json.option .str request.verifiedMime),
    ("size_bucket", .str request.sizeBucket), ("source_root_id", request.sourceRootId.json),
    ("allowed_destination_ids", .arr (request.allowedDestinationIds.map Uuid.json))]

/-- Spawn the child, write the request and wait for it to end. -/
def runChild : Fallible Tick FileSystem AgentError Child :=
  ExceptT.mk (Prog.atomic fun t fs =>
    (match t.fault with
      | some _ => .error .process
      | none => .ok t.child, t.found fs))

/-- The checks on a child's output. -/
def acceptResponse (P : Platform) (request : AgentRequest) (success : Bool) (stdout : Bytes) :
    Except AgentError AgentResponse :=
  if success = false ∨ stdout.length > maxOutputBytes then .error .malformed
  else match P.decodeResponse stdout with
    | none => .error .malformed
    | some response =>
      if response.schemaVersion ≠ 1 ∨ response.correlationId ≠ request.correlationId ∨
          response.reason.utf8ByteSize > 2048 then .error .malformed
      else if response.destinationId.any fun id => !request.allowedDestinationIds.contains id then
        .error .unregisteredDestination
      else .ok response

/-- `Adapter::classify`; the executable and its arguments only decide how the
child ends. -/
def classify (P : Platform) (executable : Option String) (request : AgentRequest) :
    Fallible Tick FileSystem AgentError AgentResponse := do
  let _ ← orFail executable AgentError.disabled
  failIf (Json.byteLength request.json.compact > maxMetadataBytes) AgentError.requestTooLarge
  let child ← runChild
  match child with
  | .notStarted => throw .process
  | .timedOut => throw .timeout
  | .exited success stdout =>
    match acceptResponse P request success stdout with
    | .ok response => pure response
    | .error e => throw e

end SortingHat
