import SortingHat.Core
import SortingHat.Text.FileName

/-!
# The review queue and its persisted form

The data of `sortinghat-service`: roots, proposals, settings, and the JSON body
`save` writes.
-/

namespace SortingHat
open Posix (Bytes bytes)
open Text

def maxRoots : Nat := 16
def maxProposals : Nat := 1000
def maxWalkDirectories : Nat := 25000
def maxWalkFiles : Nat := 100000
def maxWalkDepth : Nat := 32
def maxStateBytes : Nat := 8 * 1024 * 1024
def maxJournalBytes : Nat := 64 * 1024 * 1024
def maxTerminalJournal : Nat := 10000
def maxJournalAgeSeconds : Nat := 30 * 24 * 60 * 60

structure Root where
  id : Uuid
  path : String
  watched : Bool
  destination : Bool
  deriving DecidableEq, Repr

structure DestinationChoice where
  rootId : Uuid
  directory : String
  deriving DecidableEq, Repr

/-- The texts a proposal's status takes. -/
inductive Status where
  | proposed
  | completed
  | ignored
  | undone
  | needsAttention
  | other (text : String)
  deriving DecidableEq, Repr

namespace Status

def text : Status → String
  | proposed => "proposed"
  | completed => "completed"
  | ignored => "ignored"
  | undone => "undone"
  | needsAttention => "needs_attention"
  | other text => text

/-- Statuses that retention may drop. -/
def terminal : Status → Bool
  | completed | ignored | undone => true
  | _ => false

end Status

structure Proposal where
  id : Uuid
  revision : Nat
  sourceRootId : Uuid
  sourceRelative : String
  sourceDisplay : String
  destination : Option DestinationChoice
  destinationName : Option FileName
  destinationDisplay : Option String
  reason : String
  provenance : String
  warning : Option String
  status : Status
  size : Nat
  device : Nat
  inode : Nat
  modifiedNs : Int
  deriving DecidableEq

structure AgentSettings where
  enabled : Bool
  executable : Option String
  fixedArgs : List String
  metadataOnly : Bool
  deriving DecidableEq, Repr

def AgentSettings.default : AgentSettings :=
  { enabled := false, executable := none, fixedArgs := [], metadataOnly := true }

structure PersistentState where
  schemaVersion : Nat
  paused : Bool
  roots : List Root
  rules : List Rule
  proposals : List Proposal
  agent : AgentSettings
  deriving DecidableEq

def PersistentState.initial : PersistentState :=
  { schemaVersion := 1, paused := false, roots := [], rules := [], proposals := [],
    agent := .default }

/-! ## JSON -/

def Uuid.json (id : Uuid) : Json := .str id.toText

def Predicate.json : Predicate → Json
  | .extension value => .obj [("kind", .str "extension"), ("value", .str value)]
  | .verifiedMime value => .obj [("kind", .str "verified_mime"), ("value", .str value)]
  | .filenameGlob value => .obj [("kind", .str "filename_glob"), ("value", .str value)]
  | .sourceRoot id => .obj [("kind", .str "source_root"), ("id", id.json)]
  | .sourceDirectory value => .obj [("kind", .str "source_directory"), ("value", .str value)]
  | .completed => .obj [("kind", .str "completed")]

def Rule.json (rule : Rule) : Json :=
  .obj [("id", rule.id.json), ("priority", .int rule.priority),
    ("predicates", .arr (rule.predicates.map Predicate.json)),
    ("destination_root_id", rule.destinationRootId.json),
    ("destination_directory", .str rule.destinationDirectory)]

def Root.json (root : Root) : Json :=
  .obj [("id", root.id.json), ("path", .str root.path), ("watched", .bool root.watched),
    ("destination", .bool root.destination)]

def DestinationChoice.json (choice : DestinationChoice) : Json :=
  .obj [("root_id", choice.rootId.json), ("directory", .str choice.directory)]

def Proposal.json (p : Proposal) : Json :=
  .obj [("id", p.id.json), ("revision", .int p.revision), ("source_root_id", p.sourceRootId.json),
    ("source_relative", .str p.sourceRelative), ("source_display", .str p.sourceDisplay),
    ("destination", Json.option DestinationChoice.json p.destination),
    ("destination_name", Json.option (fun n => .str n.text) p.destinationName),
    ("destination_display", Json.option .str p.destinationDisplay),
    ("reason", .str p.reason), ("provenance", .str p.provenance),
    ("warning", Json.option .str p.warning), ("status", .str p.status.text),
    ("size", .int p.size), ("device", .int p.device), ("inode", .int p.inode),
    ("modified_ns", .int p.modifiedNs)]

def AgentSettings.json (agent : AgentSettings) : Json :=
  .obj [("enabled", .bool agent.enabled), ("executable", Json.option .str agent.executable),
    ("fixed_args", .arr (agent.fixedArgs.map .str)), ("metadata_only", .bool agent.metadataOnly)]

def PersistentState.json (state : PersistentState) : Json :=
  .obj [("schema_version", .int state.schemaVersion), ("paused", .bool state.paused),
    ("roots", .arr (state.roots.map Root.json)), ("rules", .arr (state.rules.map Rule.json)),
    ("proposals", .arr (state.proposals.map Proposal.json)), ("agent", state.agent.json)]

/-- The length of the body `save` writes. Proofs never compute it. -/
@[irreducible] def PersistentState.bodyLength (state : PersistentState) : Nat :=
  Json.byteLength (state.json.pretty 0)

/-- `state.json` as `open` sees it: its length, and what deserialising it gives.
A body that `save` wrote gives back the state it was written from. -/
structure StateFile where
  length : Nat
  content : Option PersistentState

end SortingHat
