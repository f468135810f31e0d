import SortingHat.Daemon.Dispatch
import SortingHat.Service.Body
import SortingHat.Text.Stream

/-!
# The texts on the socket

What `serde_json` makes of a line and of the argument of a request.

* `Codec.Exact`: it reads what it has written;
* `Codec.reader`, `reader_exact`: the derived decoders, on what their encoders write.
-/

namespace SortingHat
open Posix Effect Text
open Text.Json

/-- What `serde_json` makes of the texts on the socket. -/
structure Codec where
  arguments : Decoders
  request : Bytes → Option Request
  response : Bytes → Option Response

def Response.line (response : Response) : Bytes := encodeJson response.json ++ [lineFeed]

/-! ## What is written is read -/

/-- The numbers of a request are in the range of their types. -/
structure Request.Bounded (request : Request) : Prop where
  schemaVersion : request.schemaVersion < 2 ^ 8
  correlationId : request.correlationId.value < 2 ^ 128
  proposalId : ∀ id ∈ request.proposalId, id.value < 2 ^ 128
  revision : ∀ revision ∈ request.revision, revision < 2 ^ 64

/-- The numbers of a response are, and its data is a `Value`. -/
structure Response.Bounded (response : Response) : Prop where
  schemaVersion : response.schemaVersion < 2 ^ 8
  correlationId : response.correlationId.value < 2 ^ 128
  data : response.data.Keeps Fits fun keys => keys.Pairwise Json.KeyLt

/-- `json!` of the argument of a request for a root, nothing where the path is no text and it
panics. A `Value` keeps its fields in the order of their keys. -/
def RootAdd.value? (arg : RootAdd) : Option Json :=
  (toStr arg.path).map fun path => Json.sorted (.obj [("path", .str path),
    ("watched", .bool arg.watched), ("destination", .bool arg.destination)])

def DestinationArg.value (arg : DestinationArg) : Json :=
  Json.sorted (.obj [("root_id", arg.rootId.json), ("directory", .str arg.directory)])

def AgentArg.value (arg : AgentArg) : Json :=
  Json.sorted (.obj [("executable", .str arg.executable),
    ("fixed_args", .arr (arg.fixedArgs.map .str))])

/-- A value as it stands in an argument. -/
def jsonText (value : Json) : String := String.ofList value.compact

/-- `serde_json` reads back what it writes. -/
structure Codec.Exact (codec : Codec) : Prop where
  request : ∀ request : Request, request.Bounded →
    codec.request (encodeJson request.json ++ [lineFeed]) = some request
  response : ∀ response : Response, response.Bounded → codec.response response.line = some response
  empty : codec.response [] = none
  rootAdd : ∀ (arg : RootAdd) (value : Json), arg.value? = some value →
    codec.arguments.rootAdd (jsonText value) = some arg
  destinationArg : ∀ arg : DestinationArg, arg.rootId.Bounded →
    codec.arguments.destinationArg (jsonText arg.value) = some arg
  agentArg : ∀ arg : AgentArg, codec.arguments.agentArg (jsonText arg.value) = some arg

/-! ## A reader -/

/-- The value of a line. -/
def readLine? {α : Type} (decode : Json → Option α) (line : Bytes) : Option α :=
  ((toStr line).bind fun text => Json.read text.toList).bind decode

theorem readLine_encode {α : Type} (decode : Json → Option α) (value : Json) :
    readLine? decode (encodeJson value ++ [lineFeed]) = decode value := by
  have hline : encodeJson value ++ [lineFeed] =
      bytes (String.ofList (value.compact ++ ['\n'])) := by
    unfold encodeJson
    rw [bytes_ofList, bytes_ofList, List.flatMap_append]
    rfl
  have hblank : ∀ c ∈ ['\n'], blank c = true := List.forall_mem_singleton.mpr rfl
  unfold readLine?
  rw [hline, toStr_bytes, Option.bind_some, String.toList_ofList, Json.read_compact value hblank,
    Option.bind_some]

def Request.ofJson? (value : Json) : Option Request := do
  let fields ← value.record? ["schema_version", "correlation_id", "action", "proposal_id",
    "revision", "argument"]
  let schemaVersion ← field "schema_version" (nat? 8) fields
  let correlationId ← field "correlation_id" Uuid.ofJson? fields
  let action ← field "action" string? fields
  let proposalId ← fieldOr "proposal_id" none (option? Uuid.ofJson?) fields
  let revision ← fieldOr "revision" none (option? (nat? 64)) fields
  let argument ← fieldOr "argument" none (option? string?) fields
  return ⟨schemaVersion, correlationId, action, proposalId, revision, argument⟩

def Response.ofJson? (value : Json) : Option Response := do
  let fields ← value.record? ["schema_version", "correlation_id", "ok", "state", "message", "data"]
  let schemaVersion ← field "schema_version" (nat? 8) fields
  let correlationId ← field "correlation_id" Uuid.ofJson? fields
  let ok ← field "ok" bool? fields
  let state ← field "state" string? fields
  let message ← field "message" string? fields
  let data ← field "data" some fields
  return ⟨schemaVersion, correlationId, ok, state, message, data⟩

def RootAdd.ofJson? (value : Json) : Option RootAdd := do
  let fields ← value.record? ["path", "watched", "destination"]
  let path ← field "path" string? fields
  let watched ← field "watched" bool? fields
  let destination ← field "destination" bool? fields
  return ⟨bytes path, watched, destination⟩

def DestinationArg.ofJson? (value : Json) : Option DestinationArg := do
  let fields ← value.record? ["root_id", "directory"]
  let rootId ← field "root_id" Uuid.ofJson? fields
  let directory ← field "directory" string? fields
  return ⟨rootId, directory⟩

def AgentArg.ofJson? (value : Json) : Option AgentArg := do
  let fields ← value.record? ["executable", "fixed_args"]
  let executable ← field "executable" string? fields
  let fixedArgs ← field "fixed_args" (list? string?) fields
  return ⟨executable, fixedArgs⟩

/-- The value of an argument. -/
def readText? {α : Type} (decode : Json → Option α) (text : String) : Option α :=
  (Json.read text.toList).bind decode

/-- The decoders on what the encoders write. -/
def Codec.reader : Codec where
  arguments :=
    { rootAdd := readText? RootAdd.ofJson?
      destinationArg := readText? DestinationArg.ofJson?
      agentArg := readText? AgentArg.ofJson? }
  request := readLine? Request.ofJson?
  response := readLine? Response.ofJson?

theorem inverts_request {request : Request} (h : request.Bounded) :
    Inverts Request.json Request.ofJson? request := by
  have hversion : nat? 8 (.int request.schemaVersion) = some request.schemaVersion :=
    inverts_nat h.schemaVersion
  have hcorrelation : Uuid.ofJson? request.correlationId.json = some request.correlationId :=
    inverts_uuid h.correlationId
  have hid : option? Uuid.ofJson? (Json.option Uuid.json request.proposalId) =
      some request.proposalId := inverts_option (fun id hm => inverts_uuid (h.proposalId id hm))
        fun _ _ => nofun
  have hrevision : option? (nat? 64) (Json.option (fun n : Nat => .int n) request.revision) =
      some request.revision := inverts_option (fun n hm => inverts_nat (h.revision n hm))
        fun _ _ => nofun
  refine (record_fields ?_ ?_).trans ?_
  · rfl
  · decide
  · simp [field_self, field_other, fieldOr_self, fieldOr_other, hversion, hcorrelation, hid,
      hrevision, inverts_optional_string, string?]

theorem inverts_response {response : Response} (h : response.Bounded) :
    Inverts Response.json Response.ofJson? response := by
  have hversion : nat? 8 (.int response.schemaVersion) = some response.schemaVersion :=
    inverts_nat h.schemaVersion
  have hcorrelation : Uuid.ofJson? response.correlationId.json = some response.correlationId :=
    inverts_uuid h.correlationId
  refine (record_fields ?_ ?_).trans ?_
  · rfl
  · decide
  · simp [field_self, field_other, hversion, hcorrelation, string?, bool?]

theorem readText_json {α : Type} (decode : Json → Option α) (value : Json) :
    readText? decode (jsonText value) = decode value := by
  have hread : Json.read (value.compact ++ []) = some value := Json.read_compact value nofun
  rw [List.append_nil] at hread
  unfold readText? jsonText
  rw [String.toList_ofList, hread, Option.bind_some]

theorem inverts_rootAdd {arg : RootAdd} {value : Json} (h : arg.value? = some value) :
    RootAdd.ofJson? value = some arg := by
  obtain ⟨path, watched, destination⟩ := arg
  obtain ⟨text, htext, rfl⟩ := Option.map_eq_some_iff.mp h
  have hpath : bytes text = path := bytes_of_toStr htext
  have hsorted : Json.sorted (.obj [("path", .str text), ("watched", .bool watched),
      ("destination", .bool destination)]) = .obj [("destination", .bool destination),
      ("path", .str text), ("watched", .bool watched)] := by
    simp [sorted, sortedFields, List.orderedInsert, KeyLe]
  rw [hsorted]
  simp [RootAdd.ofJson?, record?, field_self, field_other, string?, bool?, hpath]

theorem inverts_destinationArg {arg : DestinationArg} (h : arg.rootId.Bounded) :
    Inverts DestinationArg.value DestinationArg.ofJson? arg := by
  have hid : Uuid.ofJson? (.str arg.rootId.toText) = some arg.rootId := inverts_uuid h
  have hsorted : arg.value = .obj [("directory", .str arg.directory),
      ("root_id", .str arg.rootId.toText)] := by
    simp [DestinationArg.value, Uuid.json, sorted, sortedFields, List.orderedInsert, KeyLe]
  unfold Inverts
  rw [hsorted]
  simp [DestinationArg.ofJson?, record?, field_self, field_other, string?, hid]

theorem inverts_agentArg (arg : AgentArg) : Inverts AgentArg.value AgentArg.ofJson? arg := by
  have hargs : list? string? (.arr (arg.fixedArgs.map .str)) = some arg.fixedArgs :=
    inverts_list fun s _ => inverts_string s
  have hitems : ∀ items : List String, sortedItems (items.map .str) = items.map .str := by
    intro items
    induction items with
    | nil => rfl
    | cons item items ih => simp [sortedItems, sorted, ih]
  have hsorted : arg.value = .obj [("executable", .str arg.executable),
      ("fixed_args", .arr (arg.fixedArgs.map .str))] := by
    simp [AgentArg.value, sorted, sortedFields, hitems, KeyLe]
  unfold Inverts
  rw [hsorted]
  simp [AgentArg.ofJson?, record?, field_self, field_other, string?, hargs]

theorem reader_request (line : Bytes) :
    Codec.reader.request line = readLine? Request.ofJson? line := rfl

theorem reader_response (line : Bytes) :
    Codec.reader.response line = readLine? Response.ofJson? line := rfl

theorem reader_rootAdd (text : String) :
    Codec.reader.arguments.rootAdd text = readText? RootAdd.ofJson? text := rfl

theorem reader_destinationArg (text : String) :
    Codec.reader.arguments.destinationArg text = readText? DestinationArg.ofJson? text := rfl

theorem reader_agentArg (text : String) :
    Codec.reader.arguments.agentArg text = readText? AgentArg.ofJson? text := rfl

/-- **The reader reads back what is written.** -/
theorem reader_exact : Codec.reader.Exact := by
  constructor
  · intro request h
    rw [reader_request, readLine_encode]
    exact inverts_request h
  · intro response h
    rw [reader_response]
    unfold Response.line
    rw [readLine_encode]
    exact inverts_response h
  · rw [reader_response]
    decide
  · intro arg value h
    rw [reader_rootAdd, readText_json]
    exact inverts_rootAdd h
  · intro arg h
    rw [reader_destinationArg, readText_json]
    exact inverts_destinationArg h
  · intro arg
    rw [reader_agentArg, readText_json]
    exact inverts_agentArg arg

end SortingHat
