import SortingHat.Service.Conduct
import SortingHat.Text.Decode
import SortingHat.Text.Lossy

/-!
# The body of `state.json`

`open` reads what `save` has written.

* `PersistentState.Bounded`: numbers in the range of their types;
* `ReadsBack`: what `serde_json` makes of the body of a state;
* `loadState_returns`: so the checks of an open end with the state;
* `Run.bodied`, `saved_read_back`: what every run has saved;
* `stateReader`: the derived decoders, on what their encoders write.
-/

namespace SortingHat
open Posix Effect
open Text Text.Json

/-! ## Ids -/

/-- The id of a text in the form that `toText` gives. -/
def Uuid.ofText? (text : String) : Option Uuid :=
  let id : Uuid := ⟨(text.toList.filterMap hexValue).foldl (fun n digit => 16 * n + digit) 0⟩
  if id.toText = text then some id else none

def Uuid.ofJson? (value : Json) : Option Uuid := value.string?.bind Uuid.ofText?

def Uuid.Bounded (id : Uuid) : Prop := id.value < 2 ^ 128

theorem digits_value (count n : Nat) :
    ((Uuid.digits count n).filterMap hexValue).foldl (fun n digit => 16 * n + digit) 0 =
      n % 16 ^ count := by
  induction count generalizing n with
  | zero => exact (Nat.mod_one n).symm
  | succ count ih =>
    rw [Uuid.digits, List.filterMap_append, List.foldl_append, ih,
      List.filterMap_cons_some (hexValue_hexDigit (Nat.mod_lt n (by decide)))]
    have hpow : n % 16 ^ (count + 1) = 16 * (n / 16 % 16 ^ count) + n % 16 := by
      rw [Nat.pow_succ', Nat.mod_mul]
      omega
    rw [hpow]
    rfl

/-- The hyphens are no digits. -/
theorem toText_digits (id : Uuid) :
    id.toText.toList.filterMap hexValue = (Uuid.digits 32 id.value).filterMap hexValue := by
  have hhyphen : hexValue '-' = none := by decide
  have hstep : ∀ (d : List Char) (n : Nat), (d.drop n).take 4 ++ d.drop (n + 4) = d.drop n := by
    intro d n
    rw [← List.drop_drop, List.take_append_drop]
  have hsplit : ∀ d : List Char, d.take 8 ++ ((d.drop 8).take 4 ++ ((d.drop 12).take 4 ++
      ((d.drop 16).take 4 ++ d.drop 20))) = d := by
    intro d
    rw [hstep d 16, hstep d 12, hstep d 8, List.take_append_drop]
  unfold Uuid.toText
  dsimp only
  rw [String.toList_ofList]
  simp only [List.filterMap_append, List.filterMap_cons_none hhyphen, List.append_assoc,
    List.cons_append]
  simp only [← List.filterMap_append, hsplit]

theorem inverts_uuid {id : Uuid} (h : id.Bounded) : Inverts Uuid.json Uuid.ofJson? id := by
  have hvalue : (id.toText.toList.filterMap hexValue).foldl (fun n digit => 16 * n + digit) 0 =
      id.value := by
    rw [toText_digits, digits_value]
    exact Nat.mod_eq_of_lt h
  obtain ⟨value⟩ := id
  unfold Inverts Uuid.ofJson? Uuid.json Uuid.ofText?
  dsimp only [string?, Option.bind]
  rw [hvalue]
  dsimp only
  rw [if_pos rfl]

/-! ## Roots and rules -/

def Root.ofJson? (value : Json) : Option Root := do
  let fields ← value.record? ["id", "path", "watched", "destination"]
  let id ← field "id" Uuid.ofJson? fields
  let path ← field "path" string? fields
  let watched ← field "watched" bool? fields
  let destination ← field "destination" bool? fields
  return { id, path, watched, destination }

/-- The one text a predicate of this kind has. -/
def Predicate.value? (value : Json) : Option String := do
  let fields ← value.record? ["kind", "value"]
  field "value" string? fields

def Predicate.ofKind? (value : Json) (kind : String) : Option Predicate :=
  if kind = "extension" then (Predicate.value? value).map .extension
  else if kind = "verified_mime" then (Predicate.value? value).map .verifiedMime
  else if kind = "filename_glob" then (Predicate.value? value).map .filenameGlob
  else if kind = "source_root" then do
    let fields ← value.record? ["kind", "id"]
    let id ← field "id" Uuid.ofJson? fields
    return .sourceRoot id
  else if kind = "source_directory" then (Predicate.value? value).map .sourceDirectory
  else if kind = "completed" then some .completed
  else none

def Predicate.ofJson? : Json → Option Predicate
  | .obj fields => (field "kind" string? fields).bind (Predicate.ofKind? (.obj fields))
  | _ => none

def Rule.ofJson? (value : Json) : Option Rule := do
  let fields ← value.record? ["id", "priority", "predicates", "destination_root_id",
    "destination_directory"]
  let id ← field "id" Uuid.ofJson? fields
  let priority ← field "priority" (int? 31) fields
  let predicates ← field "predicates" (list? Predicate.ofJson?) fields
  let destinationRootId ← field "destination_root_id" Uuid.ofJson? fields
  let destinationDirectory ← field "destination_directory" string? fields
  return { id, priority, predicates, destinationRootId, destinationDirectory }

def Predicate.Bounded : Predicate → Prop
  | .sourceRoot id => id.Bounded
  | _ => True

instance (id : Uuid) : Decidable id.Bounded := inferInstanceAs (Decidable (_ < _))

instance (predicate : Predicate) : Decidable predicate.Bounded := by
  cases predicate <;> unfold Predicate.Bounded <;> infer_instance

structure Rule.Bounded (rule : Rule) : Prop where
  id : rule.id.Bounded
  priority : -(2 ^ 31) ≤ rule.priority ∧ rule.priority < 2 ^ 31
  predicates : ∀ predicate ∈ rule.predicates, predicate.Bounded
  destinationRootId : rule.destinationRootId.Bounded

instance (rule : Rule) : Decidable rule.Bounded :=
  decidable_of_iff (rule.id.Bounded ∧ (-(2 ^ 31) ≤ rule.priority ∧ rule.priority < 2 ^ 31) ∧
      (∀ predicate ∈ rule.predicates, predicate.Bounded) ∧ rule.destinationRootId.Bounded)
    ⟨fun ⟨hid, hpriority, hpredicates, hroot⟩ => ⟨hid, hpriority, hpredicates, hroot⟩,
      fun ⟨hid, hpriority, hpredicates, hroot⟩ => ⟨hid, hpriority, hpredicates, hroot⟩⟩

theorem inverts_root {root : Root} (h : root.id.Bounded) : Inverts Root.json Root.ofJson? root := by
  have hid : Uuid.ofJson? root.id.json = some root.id := inverts_uuid h
  refine (record_fields ?_ ?_).trans ?_
  · rfl
  · decide
  · simp [field_self, field_other, hid, string?, bool?]

theorem value_obj (kind value : String) :
    Predicate.value? (.obj [("kind", .str kind), ("value", .str value)]) = some value := by
  refine (record_fields ?_ ?_).trans ?_
  · rfl
  · decide
  · simp [field_self, field_other, string?]

theorem predicate_obj (kind : String) (fields : List (String × Json)) :
    Predicate.ofJson? (.obj (("kind", .str kind) :: fields)) =
      Predicate.ofKind? (.obj (("kind", .str kind) :: fields)) kind := by
  unfold Predicate.ofJson?
  dsimp only
  rw [field_self]
  rfl

theorem inverts_predicate {predicate : Predicate} (h : predicate.Bounded) :
    Inverts Predicate.json Predicate.ofJson? predicate := by
  unfold Inverts
  cases predicate with
  | extension value =>
    rw [Predicate.json, predicate_obj, Predicate.ofKind?, if_pos rfl, value_obj]
    rfl
  | verifiedMime value =>
    rw [Predicate.json, predicate_obj, Predicate.ofKind?, if_neg (by decide), if_pos rfl, value_obj]
    rfl
  | filenameGlob value =>
    rw [Predicate.json, predicate_obj, Predicate.ofKind?, if_neg (by decide), if_neg (by decide),
      if_pos rfl, value_obj]
    rfl
  | sourceRoot id =>
    have hid : Uuid.ofJson? id.json = some id := inverts_uuid h
    rw [Predicate.json, predicate_obj, Predicate.ofKind?, if_neg (by decide), if_neg (by decide),
      if_neg (by decide), if_pos rfl]
    refine (record_fields ?_ ?_).trans ?_
    · rfl
    · decide
    · simp [field_self, field_other, hid]
  | sourceDirectory value =>
    rw [Predicate.json, predicate_obj, Predicate.ofKind?, if_neg (by decide), if_neg (by decide),
      if_neg (by decide), if_neg (by decide), if_pos rfl, value_obj]
    rfl
  | completed =>
    rw [Predicate.json, predicate_obj, Predicate.ofKind?, if_neg (by decide), if_neg (by decide),
      if_neg (by decide), if_neg (by decide), if_neg (by decide), if_pos rfl]

theorem inverts_rule {rule : Rule} (h : rule.Bounded) : Inverts Rule.json Rule.ofJson? rule := by
  have hid : Uuid.ofJson? rule.id.json = some rule.id := inverts_uuid h.id
  have hpriority : int? 31 (.int rule.priority) = some rule.priority := inverts_int h.priority
  have hpredicates : list? Predicate.ofJson? (.arr (rule.predicates.map Predicate.json)) =
      some rule.predicates :=
    inverts_list fun predicate hm => inverts_predicate (h.predicates predicate hm)
  have hroot : Uuid.ofJson? rule.destinationRootId.json = some rule.destinationRootId :=
    inverts_uuid h.destinationRootId
  refine (record_fields ?_ ?_).trans ?_
  · rfl
  · decide
  · simp [field_self, field_other, hid, hpriority, hpredicates, hroot, string?]

/-! ## Proposals -/

def Status.ofText (text : String) : Status :=
  if text = "proposed" then .proposed
  else if text = "completed" then .completed
  else if text = "ignored" then .ignored
  else if text = "undone" then .undone
  else if text = "needs_attention" then .needsAttention
  else .other text

def DestinationChoice.ofJson? (value : Json) : Option DestinationChoice := do
  let fields ← value.record? ["root_id", "directory"]
  let rootId ← field "root_id" Uuid.ofJson? fields
  let directory ← field "directory" string? fields
  return { rootId, directory }

/-- A name; the daemon has none but file names here. -/
def fileName? (value : Json) : Option FileName := value.string?.bind FileName.ofString?

def status? (value : Json) : Option Status := value.string?.map Status.ofText

def Proposal.ofJson? (value : Json) : Option Proposal := do
  let fields ← value.record? ["id", "revision", "source_root_id", "source_relative",
    "source_display", "destination", "destination_name", "destination_display", "reason",
    "provenance", "warning", "status", "size", "device", "inode", "modified_ns"]
  let id ← field "id" Uuid.ofJson? fields
  let revision ← field "revision" (nat? 64) fields
  let sourceRootId ← field "source_root_id" Uuid.ofJson? fields
  let sourceRelative ← field "source_relative" string? fields
  let sourceDisplay ← field "source_display" string? fields
  let destination ← fieldOr "destination" none (option? DestinationChoice.ofJson?) fields
  let destinationName ← fieldOr "destination_name" none (option? fileName?) fields
  let destinationDisplay ← fieldOr "destination_display" none (option? string?) fields
  let reason ← field "reason" string? fields
  let provenance ← field "provenance" string? fields
  let warning ← fieldOr "warning" none (option? string?) fields
  let status ← field "status" status? fields
  let size ← field "size" (nat? 64) fields
  let device ← field "device" (nat? 64) fields
  let inode ← field "inode" (nat? 64) fields
  let modifiedNs ← field "modified_ns" (int? 127) fields
  return ⟨id, revision, sourceRootId, sourceRelative, sourceDisplay, destination, destinationName,
    destinationDisplay, reason, provenance, warning, status, size, device, inode, modifiedNs⟩

def AgentSettings.ofJson? (value : Json) : Option AgentSettings := do
  let fields ← value.record? ["enabled", "executable", "fixed_args", "metadata_only"]
  let enabled ← field "enabled" bool? fields
  let executable ← fieldOr "executable" none (option? string?) fields
  let fixedArgs ← field "fixed_args" (list? string?) fields
  let metadataOnly ← field "metadata_only" bool? fields
  return { enabled, executable, fixedArgs, metadataOnly }

def PersistentState.ofJson? (value : Json) : Option PersistentState := do
  let fields ← value.record? ["schema_version", "paused", "roots", "rules", "proposals", "agent"]
  let schemaVersion ← field "schema_version" (nat? 8) fields
  let paused ← field "paused" bool? fields
  let roots ← field "roots" (list? Root.ofJson?) fields
  let rules ← field "rules" (list? Rule.ofJson?) fields
  let proposals ← field "proposals" (list? Proposal.ofJson?) fields
  let agent ← fieldOr "agent" AgentSettings.default AgentSettings.ofJson? fields
  return { schemaVersion, paused, roots, rules, proposals, agent }

structure Proposal.Bounded (p : Proposal) : Prop where
  id : p.id.Bounded
  revision : p.revision < 2 ^ 64
  sourceRootId : p.sourceRootId.Bounded
  destination : ∀ choice ∈ p.destination, choice.rootId.Bounded
  status : Status.ofText p.status.text = p.status
  size : p.size < 2 ^ 64
  device : p.device < 2 ^ 64
  inode : p.inode < 2 ^ 64
  modifiedNs : -(2 ^ 127) ≤ p.modifiedNs ∧ p.modifiedNs < 2 ^ 127

structure PersistentState.Bounded (state : PersistentState) : Prop where
  schemaVersion : state.schemaVersion < 2 ^ 8
  roots : ∀ root ∈ state.roots, root.id.Bounded
  rules : ∀ rule ∈ state.rules, rule.Bounded
  proposals : ∀ p ∈ state.proposals, p.Bounded

instance (p : Proposal) : Decidable p.Bounded :=
  decidable_of_iff (p.id.Bounded ∧ p.revision < 2 ^ 64 ∧ p.sourceRootId.Bounded ∧
      (∀ choice ∈ p.destination, choice.rootId.Bounded) ∧ Status.ofText p.status.text = p.status ∧
      p.size < 2 ^ 64 ∧ p.device < 2 ^ 64 ∧ p.inode < 2 ^ 64 ∧
      -(2 ^ 127) ≤ p.modifiedNs ∧ p.modifiedNs < 2 ^ 127)
    ⟨fun ⟨hid, hrevision, hroot, hchoice, hstatus, hsize, hdevice, hinode, htime⟩ =>
        ⟨hid, hrevision, hroot, hchoice, hstatus, hsize, hdevice, hinode, htime⟩,
      fun ⟨hid, hrevision, hroot, hchoice, hstatus, hsize, hdevice, hinode, htime⟩ =>
        ⟨hid, hrevision, hroot, hchoice, hstatus, hsize, hdevice, hinode, htime⟩⟩

instance (state : PersistentState) : Decidable state.Bounded :=
  decidable_of_iff (state.schemaVersion < 2 ^ 8 ∧ (∀ root ∈ state.roots, root.id.Bounded) ∧
      (∀ rule ∈ state.rules, rule.Bounded) ∧ ∀ p ∈ state.proposals, p.Bounded)
    ⟨fun ⟨hversion, hroots, hrules, hproposals⟩ => ⟨hversion, hroots, hrules, hproposals⟩,
      fun ⟨hversion, hroots, hrules, hproposals⟩ => ⟨hversion, hroots, hrules, hproposals⟩⟩

theorem inverts_choice {choice : DestinationChoice} (h : choice.rootId.Bounded) :
    Inverts DestinationChoice.json DestinationChoice.ofJson? choice := by
  have hid : Uuid.ofJson? choice.rootId.json = some choice.rootId := inverts_uuid h
  refine (record_fields ?_ ?_).trans ?_
  · rfl
  · decide
  · simp [field_self, field_other, hid, string?]

theorem ofString_text (name : FileName) : FileName.ofString? name.text = some name := by
  obtain ⟨text, bytes, single⟩ := name
  unfold FileName.ofString?
  split
  · next found h =>
    have heq := single.symm.trans h
    simp only [List.cons.injEq, Path.Component.normal.injEq, and_true] at heq
    subst heq
    rfl
  · next h => exact absurd single (h bytes)

theorem inverts_name (name : FileName) : Inverts (fun n : FileName => .str n.text) fileName? name :=
  ofString_text name

theorem inverts_optional_string (o : Option String) :
    option? string? (Json.option .str o) = some o := by cases o <;> rfl

theorem inverts_proposal {p : Proposal} (h : p.Bounded) :
    Inverts Proposal.json Proposal.ofJson? p := by
  have hid : Uuid.ofJson? p.id.json = some p.id := inverts_uuid h.id
  have hrevision : nat? 64 (.int p.revision) = some p.revision := inverts_nat h.revision
  have hroot : Uuid.ofJson? p.sourceRootId.json = some p.sourceRootId := inverts_uuid h.sourceRootId
  have hdestination : option? DestinationChoice.ofJson?
      (Json.option DestinationChoice.json p.destination) = some p.destination :=
    inverts_option (fun choice hm => inverts_choice (h.destination choice hm)) fun _ _ => nofun
  have hname : option? fileName? (Json.option (fun n => .str n.text) p.destinationName) =
      some p.destinationName := inverts_option (fun name _ => inverts_name name) fun _ _ => nofun
  have hstatus : status? (.str p.status.text) = some p.status := congrArg some h.status
  have hsize : nat? 64 (.int p.size) = some p.size := inverts_nat h.size
  have hdevice : nat? 64 (.int p.device) = some p.device := inverts_nat h.device
  have hinode : nat? 64 (.int p.inode) = some p.inode := inverts_nat h.inode
  have hmodified : int? 127 (.int p.modifiedNs) = some p.modifiedNs := inverts_int h.modifiedNs
  refine (record_fields ?_ ?_).trans ?_
  · rfl
  · decide
  · simp [field_self, field_other, fieldOr_self, fieldOr_other, hid, hrevision, hroot, hdestination,
      hname, hstatus, hsize, hdevice, hinode, hmodified, inverts_optional_string, string?]

/-! ## States -/

theorem inverts_agent (agent : AgentSettings) :
    Inverts AgentSettings.json AgentSettings.ofJson? agent := by
  have hargs : list? string? (.arr (agent.fixedArgs.map .str)) = some agent.fixedArgs :=
    inverts_list fun s _ => inverts_string s
  refine (record_fields ?_ ?_).trans ?_
  · rfl
  · decide
  · simp [field_self, field_other, fieldOr_self, fieldOr_other, hargs, inverts_optional_string,
      bool?]

theorem inverts_state {state : PersistentState} (h : state.Bounded) :
    Inverts PersistentState.json PersistentState.ofJson? state := by
  have hversion : nat? 8 (.int state.schemaVersion) = some state.schemaVersion :=
    inverts_nat h.schemaVersion
  have hroots : list? Root.ofJson? (.arr (state.roots.map Root.json)) = some state.roots :=
    inverts_list fun root hm => inverts_root (h.roots root hm)
  have hrules : list? Rule.ofJson? (.arr (state.rules.map Rule.json)) = some state.rules :=
    inverts_list fun rule hm => inverts_rule (h.rules rule hm)
  have hproposals : list? Proposal.ofJson? (.arr (state.proposals.map Proposal.json)) =
      some state.proposals := inverts_list fun p hm => inverts_proposal (h.proposals p hm)
  have hagent : AgentSettings.ofJson? state.agent.json = some state.agent :=
    inverts_agent state.agent
  refine (record_fields ?_ ?_).trans ?_
  · rfl
  · decide
  · simp [field_self, field_other, fieldOr_self, fieldOr_other, hversion, hroots, hrules, hproposals,
      hagent, bool?]

/-! ## The file -/

/-- The body `save` writes. -/
def PersistentState.body (state : PersistentState) : Bytes :=
  bytes (String.ofList (state.json.pretty 0))

/-- What `open` finds in a file with these bytes, of which `read` is what `serde_json` makes. -/
def StateFile.ofBytes (read : Bytes → Option PersistentState) (body : Bytes) : StateFile where
  length := body.length
  content := read body

/-- `serde_json` reads back what it has written of a state. -/
def ReadsBack (read : Bytes → Option PersistentState) : Prop :=
  ∀ state : PersistentState, state.Bounded → read state.body = some state

theorem length_bytes_ofList (text : List Char) :
    (bytes (String.ofList text)).length = Json.byteLength text := by
  rw [bytes_ofList, List.length_flatMap]
  unfold Json.byteLength
  congr 1
  exact List.map_congr_left fun c _ => String.length_utf8EncodeChar c

theorem length_body (state : PersistentState) : state.body.length = state.bodyLength := by
  unfold PersistentState.body PersistentState.bodyLength
  exact length_bytes_ofList _

/-- A load whose calls do not fail ends with the state, and with nothing else. -/
theorem loadState_wp {file : StateFile} {state : PersistentState}
    (hcontent : file.content = some state) (hfits : file.length ≤ maxStateBytes)
    (hversion : state.schemaVersion = 1) :
    wpE (fun t => t.fault = none) loadState
      (fun loaded stored => loaded = state ∧ stored = some file) (fun _ _ => False)
      (fun _ => True) (some file) := by
  have hread : ∀ {Q : StateFile → Option StateFile → Prop}, Q file (some file) →
      wpE (fun t => t.fault = none) (recast ServiceError.io readStateFile) Q (fun _ _ => False)
        (fun _ => True) (some file) := by
    refine fun hQ => (wpE_recast _ _).mpr (And.intro trivial fun t ht => ?_)
    dsimp only
    rw [ht]
    exact hQ
  have hpresent : wpE (fun t => t.fault = none) (recast ServiceError.io stateExists)
      (fun present stored => present = true ∧ stored = some file) (fun _ _ => False)
      (fun _ => True) (some file) := by
    refine (wpE_recast _ _).mpr (And.intro trivial fun t ht => ?_)
    have ht : t.fault = none := ht
    exact ⟨by rw [ht]; rfl, rfl⟩
  unfold loadState
  refine (wpE_bind _ _).mpr (wpE_mono hpresent ?_ (fun _ _ h => h) fun _ h => h)
  rintro _ _ ⟨rfl, rfl⟩
  rw [if_pos rfl]
  unfold readState
  refine (wpE_bind _ _).mpr (hread ((wpE_bind _ _).mpr ((wpE_failIf _ _).mpr ⟨?_, fun _ => ?_⟩)))
  · exact fun hover => absurd hfits (Nat.not_le.mpr hover)
  refine (wpE_bind _ _).mpr (hread ((wpE_bind _ _).mpr ((wpE_orFail _ _).mpr ⟨?_, ?_⟩)))
  · exact fun hnone => nomatch hcontent.symm.trans hnone
  intro loaded hloaded
  obtain rfl := Option.some.inj (hcontent.symm.trans hloaded)
  refine (wpE_bind _ _).mpr ((wpE_failIf _ _).mpr ⟨fun hother => hother hversion, fun _ => ?_⟩)
  exact ⟨rfl, rfl⟩

/-- **A load whose calls do not fail returns the state.** -/
theorem loadState_returns {file : StateFile} {state : PersistentState}
    (hcontent : file.content = some state) (hfits : file.length ≤ maxStateBytes)
    (hversion : state.schemaVersion = 1) (ticks : Nat → Tick)
    (hquiet : ∀ n, (ticks n).fault = none) :
    ∃ n, (ExceptT.run loadState).after ((List.range n).map ticks) (some file) =
      (.done (.ok state), some file) := by
  obtain ⟨n, r, stored, hrun⟩ :=
    Prog.exists_finish_along ticks (ExceptT.run loadState) (some file)
  have hholds := Prog.wp_after (loadState_wp hcontent hfits hversion) ((List.range n).map ticks)
    (by simp [hquiet])
  rw [hrun] at hholds
  cases r with
  | error e => exact hholds.elim
  | ok loaded =>
    obtain ⟨rfl, rfl⟩ := hholds
    exact ⟨n, hrun⟩

/-- The file holds a state, in a body that `open` accepts. -/
def Bodied (w : World) : Prop := ∀ file, w.stateJson = some file → ∃ state : PersistentState,
  file = ⟨state.bodyLength, some state⟩ ∧ state.bodyLength ≤ maxStateBytes ∧ state.schemaVersion = 1

theorem settle_schemaVersion {state : PersistentState} {id : Uuid} {f : Proposal → Proposal} :
    (state.settle id f).schemaVersion = state.schemaVersion := by
  unfold PersistentState.settle
  split <;> rfl

theorem Deed.bodied {P : Platform} {A : Tick → Prop} {caller : Option Call} {lossy : Bool}
    {s s' : Service} {w w' : World} (h : Deed P A caller lossy s w s' w')
    (hversion : s.state.schemaVersion = 1) (hbodied : Bodied w) :
    s'.state.schemaVersion = 1 ∧ Bodied w' := by
  cases h with
  | installed hfits =>
    refine ⟨hversion, fun file hfile => ?_⟩
    exact ⟨s.state, (Option.some.inj hfile).symm, hfits, hversion⟩
  | settled | warned => exact ⟨settle_schemaVersion.trans hversion, hbodied⟩
  | _ => exact ⟨hversion, hbodied⟩

/-- An open may find no file. -/
theorem loads_initial {w : World} : Loads (fun _ => True) w .initial :=
  .inl ⟨rfl, .inr ⟨⟨none, some .IOERR, 0, 0, .notStarted⟩, trivial, nofun⟩⟩

theorem Run.bodied {P : Platform} {fs : FileSystem} {events : List Event} {m : Machine}
    (h : Run P (Machine.initial fs) events m) :
    m.Meets (fun _ => True) fun s w => s.state.schemaVersion = 1 ∧ Bodied w := by
  apply h.keeps
  · exact fun _ _ _ _ _ _ _ hI hd => hd.bodied hI.1 hI.2
  · rintro s w loaded ⟨-, hbodied⟩ (⟨rfl, -⟩ | ⟨file, hfile, hcontent⟩)
    · exact ⟨rfl, hbodied⟩
    · obtain ⟨state, rfl, -, hversion⟩ := hbodied file hfile
      obtain rfl := Option.some.inj hcontent
      exact ⟨hversion, hbodied⟩
  · rintro loaded (⟨rfl, -⟩ | ⟨file, hfile, -⟩)
    · exact ⟨rfl, nofun⟩
    · cases hfile

/-- **What is saved is what `open` reads.** After any run, `state.json` is absent or holds the
body of a state, no longer than `open` accepts and of the version it accepts; and if its
numbers are in the range of their types, what the checks of an open make of these bytes is
that state. -/
theorem saved_read_back {P : Platform} {fs : FileSystem} {events : List Event} {m : Machine}
    {read : Bytes → Option PersistentState} (hread : ReadsBack read)
    (h : Run P (Machine.initial fs) events m) : ∀ file, m.world.stateJson = some file →
      ∃ state : PersistentState, file = ⟨state.body.length, some state⟩ ∧
        file.length ≤ maxStateBytes ∧ state.schemaVersion = 1 ∧
        (state.Bounded → ∀ ticks : Nat → Tick, (∀ n, (ticks n).fault = none) →
          ∃ n, (ExceptT.run loadState).after ((List.range n).map ticks)
              (some (StateFile.ofBytes read state.body)) =
            (.done (.ok state), some (StateFile.ofBytes read state.body))) := by
  have hmeets := h.bodied
  have hbodied : Bodied m.world := by
    obtain ⟨w, service⟩ := m
    cases service with
    | some s => exact And.right hmeets
    | none => exact (hmeets .initial loads_initial).2
  intro file hfile
  obtain ⟨state, rfl, hfits, hversion⟩ := hbodied file hfile
  refine ⟨state, by rw [length_body], hfits, hversion, fun hbounded ticks hquiet => ?_⟩
  have hlength : (StateFile.ofBytes read state.body).length ≤ maxStateBytes := by
    rw [← length_body] at hfits
    exact hfits
  exact loadState_returns (hread state hbounded) hlength hversion ticks hquiet

/-! ## A reader -/

theorem toStr_bytes (s : String) : toStr (bytes s) = some s := by
  unfold toStr
  rw [toStringLossy_bytes, if_pos rfl]

/-- The derived decoders, on a text. -/
def stateReader (body : Bytes) : Option PersistentState :=
  ((toStr body).bind fun text => Json.read text.toList).bind PersistentState.ofJson?

theorem stateReader_readsBack : ReadsBack stateReader := by
  intro state h
  have hstate : PersistentState.ofJson? state.json = some state := inverts_state h
  unfold stateReader PersistentState.body
  rw [toStr_bytes, Option.bind_some, String.toList_ofList, read_pretty, Option.bind_some, hstate]

/-- The file is proposed, and the queue is saved. -/
theorem saved_read_back_proposed : ∃ (events : List Event) (m : Machine) (file : StateFile)
    (state : PersistentState) (n : Nat), Run .sample (Machine.initial sampleFiles) events m ∧
      m.world.stateJson = some file ∧ file.length = state.body.length ∧
      state.proposals.length = 1 ∧ (ExceptT.run loadState).after (List.replicate n (Tick.quiet 0))
          (some (StateFile.ofBytes stateReader state.body)) =
        (.done (.ok state), some (StateFile.ofBytes stateReader state.body)) := by
  obtain ⟨events, m, hrun, htest⟩ := exists_run (P := .sample) (m := Machine.initial sampleFiles)
    (Command.enrol (bytes "/d"))
    (fun _ m => m.world.stateJson.any fun file => file.content.any fun state =>
      decide (state.Bounded ∧ state.proposals.length = 1)) (by decide +kernel)
  obtain ⟨file, hfile, hcontent⟩ := (Option.any_eq_true _ _).mp htest
  obtain ⟨state, hstate, htest⟩ := (Option.any_eq_true _ _).mp hcontent
  obtain ⟨hbounded, hlength⟩ := of_decide_eq_true htest
  obtain ⟨saved, rfl, -, -, hread⟩ := saved_read_back stateReader_readsBack hrun file hfile
  obtain rfl := Option.some.inj hstate
  obtain ⟨n, hloads⟩ := hread hbounded (fun _ => Tick.quiet 0) fun _ => rfl
  rw [List.map_const', List.length_range] at hloads
  exact ⟨events, m, _, _, n, hrun, hfile, rfl, hlength, hloads⟩

end SortingHat
