import SortingHat.Daemon.Queue
import SortingHat.Daemon.Server

/-!
# The client

`call` of `sortinghat-cli`, and the commands of `sortinghat` that are sent with it.

* `Client.call`, `Client.receive`: the client as it is written, over a socket;
* `served`: the socket with the daemon at its other end;
* `exchange`: what the client is told of its request is what the daemon has done.
-/

namespace SortingHat
open Posix Effect Text

inductive ProtocolError where
  | io (e : Errno)
  | invalidResponse
  | correlationMismatch
  | invalidRequest
  deriving DecidableEq, Repr

def ProtocolError.text (texts : Texts) : ProtocolError → String
  | .io e => "I/O: " ++ texts.errno e
  | .invalidResponse => "invalid or oversized response"
  | .correlationMismatch => "correlation mismatch"
  | .invalidRequest => "invalid request"

namespace Client

/-- What the client makes of the bytes it is sent. -/
def receive (codec : Codec) (request : Request) (stream : Stream Errno) :
    Except ProtocolError Response :=
  match stream.readLine (maxIpcBytes + 1) with
  | .error e => .error (.io e)
  | .ok line =>
    if line.length > maxIpcBytes then .error .invalidResponse
    else match codec.response line with
      | none => .error .invalidResponse
      | some response =>
        if response.schemaVersion ≠ 1 then .error .invalidResponse
        else if response.correlationId ≠ request.correlationId then .error .correlationMismatch
        else .ok response

/-- `call`; the socket takes what is written to it, and gives what can be read behind that. -/
def call {m : Type → Type} [Monad m] (codec : Codec) (socket : Bytes → m (Except Errno (Stream Errno)))
    (request : Request) : m (Except ProtocolError Response) :=
  if validateRequest request = false then pure (.error .invalidRequest)
  else if (encodeJson request.json).length ≥ maxIpcBytes then pure (.error .invalidResponse)
  else do
    let sent ← socket (encodeJson request.json ++ [lineFeed])
    match sent with
    | .error e => return .error (.io e)
    | .ok stream => return receive codec request stream

end Client

/-! ## Both ends -/

/-- What the client can read of what the daemon leaves. -/
def Reply.stream : Reply → Stream Errno
  | .sent response => { data := response.line, fault := none }
  | .closed | .panicked => { data := [], fault := none }

/-- A socket at whose other end the daemon runs, for the same user. -/
def served (P : Platform) (codec : Codec) (texts : Texts) (data : Bytes) :
    StateT Service Sys (Except Errno (Stream Errno)) := fun s =>
  handle P codec { owner := true, stream := { data, fault := none }, texts } s >>= fun r =>
    .done (.ok r.1.stream, r.2)

/-! ## The data of a response -/

/-- The keys of every object differ. -/
def Keyed (value : Json) : Prop := value.Keeps (fun _ => True) List.Nodup

theorem keyed_int (n : Int) : Keyed (.int n) := .int trivial

theorem keyed_list {α : Type} {f : α → Json} (h : ∀ a, Keyed (f a)) (l : List α) :
    Keyed (.arr (l.map f)) := by
  apply Json.Keeps.arr
  intro item hm
  obtain ⟨a, -, rfl⟩ := List.mem_map.mp hm
  exact h a

theorem keyed_option {α : Type} {f : α → Json} (h : ∀ a, Keyed (f a)) (o : Option α) :
    Keyed (Json.option f o) := by
  cases o with
  | none => exact .null
  | some a => exact h a

theorem keyed_obj {fields : List (String × Json)} (hkeys : (fields.map Prod.fst).Nodup)
    (h : ∀ field ∈ fields, Keyed field.2) : Keyed (.obj fields) := .obj hkeys h

theorem keyed_root (root : Root) : Keyed root.json := by
  apply keyed_obj (by dsimp only [List.map]; decide)
  simp only [List.forall_mem_cons]
  exact ⟨.str _, .str _, .bool _, .bool _, nofun⟩

theorem keyed_predicate (predicate : Predicate) : Keyed predicate.json := by
  cases predicate with
  | completed =>
    apply keyed_obj (by dsimp only [List.map]; decide)
    simp only [List.forall_mem_cons]
    exact ⟨.str _, nofun⟩
  | _ =>
    apply keyed_obj (by dsimp only [List.map]; decide)
    simp only [List.forall_mem_cons]
    exact ⟨.str _, .str _, nofun⟩

theorem keyed_rule (rule : Rule) : Keyed rule.json := by
  apply keyed_obj (by dsimp only [List.map]; decide)
  simp only [List.forall_mem_cons]
  exact ⟨.str _, keyed_int _, keyed_list keyed_predicate _, .str _, .str _, nofun⟩

theorem keyed_agent (agent : AgentSettings) : Keyed agent.json := by
  apply keyed_obj (by dsimp only [List.map]; decide)
  simp only [List.forall_mem_cons]
  exact ⟨.bool _, keyed_option .str _, keyed_list .str _, .bool _, nofun⟩

theorem keyed_choice (choice : DestinationChoice) : Keyed choice.json := by
  apply keyed_obj (by dsimp only [List.map]; decide)
  simp only [List.forall_mem_cons]
  exact ⟨.str _, .str _, nofun⟩

theorem keyed_proposal (p : Proposal) : Keyed p.json := by
  apply keyed_obj (by dsimp only [List.map]; decide)
  simp only [List.forall_mem_cons]
  exact ⟨.str _, keyed_int _, .str _, .str _, .str _, keyed_option keyed_choice _,
    keyed_option (fun _ => .str _) _, keyed_option .str _, .str _, .str _, keyed_option .str _,
    .str _, keyed_int _, keyed_int _, keyed_int _, keyed_int _, nofun⟩

theorem keyed_value {p : Proposal} : ∀ value ∈ p.value?, Keyed value := by
  intro value hm
  unfold Proposal.value? at hm
  split at hm
  · cases hm
    exact keyed_proposal p
  · cases hm

theorem keyed_values {proposals : List Proposal} :
    ∀ value ∈ proposalsValue? proposals, Keyed value := by
  intro value hm
  rw [proposalsValue_eq_some hm]
  exact keyed_list keyed_proposal _

section
variable {P : Platform} {D : Decoders} {codec : Codec} {s s' : Service} {w w' : World}

theorem wpS_some {α : Type} {x : ServiceM α} {f : α → Json} (hf : ∀ a, Keyed (f a)) :
    wpS (fun _ => True) (do let a ← x; return some (f a)) (fun data _ _ => ∀ value ∈ data, Keyed value)
      (fun _ _ _ => True) (fun _ => True) s w :=
  wpS_then fun a _ _ => (wpS_pure _).mpr fun _ hm => Option.some.inj hm ▸ hf a

theorem wpS_value {x : ServiceM Proposal} :
    wpS (fun _ => True) (do let p ← x; return p.value?) (fun data _ _ => ∀ value ∈ data, Keyed value)
      (fun _ _ _ => True) (fun _ => True) s w :=
  wpS_then fun _ _ _ => (wpS_pure _).mpr keyed_value

/-- **The keys of what `dispatch` answers with differ.** -/
theorem dispatchData_keyed (request : Request) (verb : Verb) :
    wpS (fun _ => True) (dispatchData P D request verb) (fun data _ _ => ∀ value ∈ data, Keyed value)
      (fun _ _ _ => True) (fun _ => True) s w := by
  have hfield : ∀ (key : String) (value : Json), Keyed value → Keyed (.obj [(key, value)]) := by
    intro key value hvalue
    exact keyed_obj (List.nodup_singleton key) (List.forall_mem_singleton.mpr hvalue)
  cases verb with
  | status =>
    apply wpS_some
    intro state
    apply keyed_obj (by dsimp only [List.map]; decide)
    simp only [List.forall_mem_cons]
    exact ⟨.bool _, keyed_int _, nofun⟩
  | pause | resume => exact wpS_some fun _ => hfield _ _ (.bool _)
  | scan => exact wpS_some fun _ => hfield _ _ (keyed_int _)
  | rootsList => exact wpS_some fun _ => keyed_list keyed_root _
  | rootsAdd => exact wpS_then fun _ _ _ => wpS_some keyed_root
  | rootsRemove => exact wpS_then fun _ _ _ => wpS_some fun _ => .null
  | queueList => exact wpS_then fun _ _ _ => (wpS_pure _).mpr keyed_values
  | proposalShow => exact wpS_then fun _ _ _ => wpS_then fun _ _ _ => wpS_value
  | proposalDestination =>
    exact wpS_then fun _ _ _ => wpS_then fun _ _ _ => wpS_then fun _ _ _ => wpS_value
  | proposalChooseFolder | proposalRename =>
    exact wpS_then fun _ _ _ => wpS_then fun _ _ _ => wpS_then fun _ _ _ => wpS_value
  | proposalApprove | proposalIgnore | undo =>
    exact wpS_then fun _ _ _ => wpS_then fun _ _ _ => wpS_value
  | rulesList => exact wpS_some fun _ => keyed_list keyed_rule _
  | ruleCreate =>
    exact wpS_then fun _ _ _ => wpS_then fun _ _ _ => wpS_then fun _ _ _ => wpS_some keyed_rule
  | agentStatus => exact wpS_some fun _ => keyed_agent _
  | agentEnable => exact wpS_then fun _ _ _ => wpS_some keyed_agent
  | agentDisable => exact wpS_some keyed_agent

/-- What a response to `request` looks like. -/
structure Answering (request : Request) (response : Response) : Prop where
  schemaVersion : response.schemaVersion = 1
  correlationId : response.correlationId = request.correlationId
  data : response.data.Keeps (fun _ => True) fun keys => keys.Pairwise Json.KeyLt

theorem dispatch_answering (request : Request) :
    wpS (fun _ => True) (dispatch P D request)
      (fun response _ _ => ∀ r ∈ response, Answering request r.kept)
      (fun _ _ _ => True) (fun _ => True) s w := by
  unfold dispatch
  rw [wpS_bind, wpS_orFail]
  refine ⟨fun _ => trivial, fun verb _ => (wpS_bind _ _).mpr ?_⟩
  refine wpS_mono (dispatchData_keyed request verb) ?_ (fun _ _ _ h => h) fun _ h => h
  intro data s' w' hkeyed
  rw [wpS_bind, wpS_getState, wpS_pure]
  intro r hm
  obtain ⟨value, hvalue, rfl⟩ := Option.map_eq_some_iff.mp hm
  exact ⟨rfl, rfl, Json.sorted_keeps (hkeyed value hvalue)⟩

theorem refused_answering (request : Request) (state message : String) :
    Answering request (request.refused state message) := ⟨rfl, rfl, .null⟩

theorem respond_answering {texts : Texts} {request : Request} {ticks : List Tick}
    {response : Option Response}
    (h : (respond P codec texts request s).after ticks w = (.done (response, s'), w')) :
    ∀ r ∈ response, Answering request r := by
  unfold respond at h
  split at h
  · obtain ⟨hdone, -⟩ := Prod.mk.inj h
    obtain ⟨rfl, -⟩ := Prod.mk.inj (Prog.done.inj hdone)
    intro r hm
    obtain rfl := Option.some.inj hm
    exact refused_answering request _ _
  · obtain ⟨⟨r, s₁⟩, w₁, hdispatch⟩ := Prog.finished_of_bind h
    rw [Prog.after_bind_left hdispatch] at h
    have hanswering := Prog.wp_after (dispatch_answering (P := P) (D := codec.arguments) (s := s)
      (w := w) request) ticks fun _ _ => trivial
    rw [hdispatch] at hanswering
    obtain ⟨hdone, -⟩ := Prod.mk.inj h
    cases r with
    | ok answer =>
      obtain ⟨rfl, -⟩ := Prod.mk.inj (Prog.done.inj hdone)
      intro r hm
      obtain ⟨r, hr, rfl⟩ := Option.map_eq_some_iff.mp hm
      exact hanswering r hr
    | error e =>
      obtain ⟨rfl, -⟩ := Prod.mk.inj (Prog.done.inj hdone)
      intro r hm
      obtain rfl := Option.some.inj hm
      exact refused_answering request _ _

/-! ## Both ends together -/

/-- What reaches the client of an answer: one that is too long, or a panic, does not. -/
def delivered : Option Response → Except ProtocolError Response
  | none => .error .invalidResponse
  | some response =>
    if response.line.length > maxIpcBytes then .error .invalidResponse else .ok response

theorem lineFeed_not_mem_encode (value : Json) : lineFeed ∉ encodeJson value :=
  lineFeed_not_mem_compact value

theorem Answering.bounded {request : Request} {response : Response} (h : Answering request response)
    (hrequest : request.Bounded) (hfits : response.data.Keeps Fits fun _ => True) :
    response.Bounded where
  schemaVersion := by
    rw [h.schemaVersion]
    decide
  correlationId := h.correlationId ▸ hrequest.correlationId
  data := hfits.keys h.data

/-- **The client reads what the daemon answers**, where it is not too long. -/
theorem receive_answer (hcodec : codec.Exact) {request : Request} {response : Response}
    (hanswering : Answering request response) (hbounded : response.Bounded) :
    Client.receive codec request (Reply.sent response).stream = delivered (some response) := by
  have hclean := lineFeed_not_mem_encode response.json
  have hend : Response.line response = encodeJson response.json ++ lineFeed :: [] := rfl
  have hlength : response.line.length = (encodeJson response.json).length + 1 := by
    rw [hend, List.length_append]
    rfl
  unfold Client.receive delivered Reply.stream
  dsimp only
  by_cases hlong : (encodeJson response.json).length < maxIpcBytes + 1
  · rw [hend, readLine_line hclean hlong, ← hend]
    dsimp only
    by_cases hmany : response.line.length > maxIpcBytes
    · rw [if_pos hmany, if_pos hmany]
    · rw [if_neg hmany, if_neg hmany, hcodec.response response hbounded]
      dsimp only
      rw [if_neg (not_not.mpr hanswering.schemaVersion),
        if_neg (not_not.mpr hanswering.correlationId)]
  · have hlong := Nat.not_lt.mp hlong
    have htake : ((encodeJson response.json).take (maxIpcBytes + 1)).length > maxIpcBytes := by
      rw [List.length_take]
      omega
    rw [hend, readLine_long hclean hlong, ← hend]
    dsimp only
    rw [if_pos htake, if_pos (by omega)]

/-- Of a panic the client sees that the connection ends. -/
theorem receive_panic (hcodec : codec.Exact) (request : Request) :
    Client.receive codec request Reply.panicked.stream = delivered none := by
  have hread : Reply.panicked.stream.readLine (maxIpcBytes + 1) = .ok [] := rfl
  unfold Client.receive delivered
  rw [hread]
  dsimp only
  rw [if_neg (by decide), hcodec.empty]

/-- Whether the client sends the request. -/
def Client.sends (request : Request) : Bool :=
  validateRequest request && decide ((encodeJson request.json).length < maxIpcBytes)

/-- The daemon reads the request that the client sends. -/
theorem served_request (hcodec : codec.Exact) {request : Request} (hrequest : request.Bounded)
    (hsends : Client.sends request = true) (texts : Texts) :
    Connection.request? codec ⟨true, ⟨encodeJson request.json ++ [lineFeed], none⟩, texts⟩ =
      some request := by
  obtain ⟨-, hshort⟩ := Bool.and_eq_true_iff.mp hsends
  have hshort := of_decide_eq_true hshort
  unfold Connection.request?
  rw [readLine_line (lineFeed_not_mem_encode _) (Nat.lt_succ_of_lt hshort)]
  dsimp only
  rw [List.length_append, if_neg (by simp only [List.length_singleton]; omega),
    hcodec.request request hrequest]

def Reply.of : Option Response → Reply
  | some response => .sent response
  | none => .panicked

/-- A call over the socket is a request that is answered. -/
theorem call_served (hcodec : codec.Exact) {request : Request} (hrequest : request.Bounded)
    (hsends : Client.sends request = true) (texts : Texts) :
    (Client.call codec (served P codec texts) request).run s =
      respond P codec texts request s >>= fun r =>
        .done (Client.receive codec request (Reply.of r.1).stream, r.2) := by
  obtain ⟨hvalid, hshort⟩ := Bool.and_eq_true_iff.mp hsends
  have hshort := of_decide_eq_true hshort
  unfold Client.call
  rw [if_neg (Bool.not_eq_false _ ▸ hvalid), if_neg (Nat.not_le.mpr hshort)]
  change (served P codec texts (encodeJson request.json ++ [lineFeed]) s >>= _) = _
  unfold served handle
  rw [served_request hcodec hrequest hsends]
  dsimp only
  rw [Prog.bind_assoc, Prog.bind_assoc]
  congr 1
  funext r
  obtain ⟨response, s'⟩ := r
  cases response <;> rfl

theorem call_after (hcodec : codec.Exact) {request : Request} (hrequest : request.Bounded)
    (hsends : Client.sends request = true) {texts : Texts} {ticks : List Tick}
    {response : Option Response}
    (h : (respond P codec texts request s).after ticks w = (.done (response, s'), w')) :
    ((Client.call codec (served P codec texts) request).run s).after ticks w =
      (.done (Client.receive codec request (Reply.of response).stream, s'), w') := by
  rw [call_served hcodec hrequest hsends, Prog.after_bind_left h]
  rfl

/-- A request that is not sent. -/
theorem call_kept {request : Request} {texts : Texts} {ticks : List Tick}
    {answer : Except ProtocolError Response} (hsends : Client.sends request = false)
    (h : ((Client.call codec (served P codec texts) request).run s).after ticks w =
      (.done (answer, s'), w')) : s' = s ∧ w' = w ∧ answer =
      .error (if validateRequest request then .invalidResponse else .invalidRequest) := by
  unfold Client.call at h
  cases hvalid : validateRequest request with
  | false =>
    rw [if_pos hvalid] at h
    obtain ⟨hdone, rfl⟩ := Prod.mk.inj h
    obtain ⟨rfl, rfl⟩ := Prod.mk.inj (Prog.done.inj hdone)
    exact ⟨rfl, rfl, rfl⟩
  | true =>
    have hlong : ¬ (encodeJson request.json).length < maxIpcBytes := by
      unfold Client.sends at hsends
      rw [hvalid, Bool.true_and] at hsends
      exact of_decide_eq_false hsends
    rw [if_neg (by rw [hvalid]; decide), if_pos (Nat.not_lt.mp hlong)] at h
    obtain ⟨hdone, rfl⟩ := Prod.mk.inj h
    obtain ⟨rfl, rfl⟩ := Prod.mk.inj (Prog.done.inj hdone)
    exact ⟨rfl, rfl, rfl⟩

/-- A request that is sent. -/
theorem call_carried {request : Request} {texts : Texts} {ticks : List Tick}
    {answer : Except ProtocolError Response} (hcodec : codec.Exact) (hrequest : request.Bounded)
    (hsends : Client.sends request = true)
    (h : ((Client.call codec (served P codec texts) request).run s).after ticks w =
      (.done (answer, s'), w')) : ∃ response,
      (respond P codec texts request s).after ticks w = (.done (response, s'), w') ∧
      CarriedOut P ticks s w s' w' (Reports response) (request.asks? codec.arguments) ∧
      ((∀ r ∈ response, r.data.Keeps Fits fun _ => True) → answer = delivered response) := by
  rw [call_served hcodec hrequest hsends] at h
  obtain ⟨⟨response, s₁⟩, w₁, hrespond⟩ := Prog.finished_of_bind h
  rw [Prog.after_bind_left hrespond] at h
  obtain ⟨hdone, rfl⟩ := Prod.mk.inj h
  obtain ⟨rfl, rfl⟩ := Prod.mk.inj (Prog.done.inj hdone)
  refine ⟨response, hrespond, (respond_carries texts request).done hrespond, fun hfits => ?_⟩
  cases response with
  | none => exact receive_panic hcodec request
  | some response =>
    have hanswering := respond_answering hrespond response rfl
    exact receive_answer hcodec hanswering (hanswering.bounded hrequest (hfits response rfl))

/-- **What the client is told of its request is what the daemon has done.** A request that is not
valid, or too long, is not sent. Any other the daemon reads as it is and carries out exactly once,
or the part of it that reads; and the client gets the very answer, that tells whether the call
succeeded, unless the answer is too long for it or never comes because the daemon panics. -/
theorem exchange {request : Request} {texts : Texts} {ticks : List Tick}
    {answer : Except ProtocolError Response} (hcodec : codec.Exact) (hrequest : request.Bounded)
    (h : ((Client.call codec (served P codec texts) request).run s).after ticks w =
      (.done (answer, s'), w')) :
    (Client.sends request = false → s' = s ∧ w' = w ∧ answer =
      .error (if validateRequest request then .invalidResponse else .invalidRequest)) ∧
    (Client.sends request = true → ∃ response,
      (respond P codec texts request s).after ticks w = (.done (response, s'), w') ∧
      CarriedOut P ticks s w s' w' (Reports response) (request.asks? codec.arguments) ∧
      ((∀ r ∈ response, r.data.Keeps Fits fun _ => True) → answer = delivered response)) :=
  ⟨fun hsends => call_kept hsends h, fun hsends => call_carried hcodec hrequest hsends h⟩

end

def pausingRequest : Request := ⟨1, ⟨7⟩, "pause", none, none, none⟩

def pausingAnswer : Response := ⟨1, ⟨7⟩, true, "paused", "ok", .obj [("paused", .bool true)]⟩

/-- The daemon pauses, saves it and answers so. -/
def pauses : Sys (Option Response × Service) × World → Bool
  | (.done (some ⟨1, ⟨7⟩, true, "paused", "ok", .obj [("paused", .bool true)]⟩, s), w) =>
    s.state.paused && w.stateJson.any fun file => file.content.any PersistentState.paused
  | _ => false

/-- The answer is given, and fits. -/
theorem pausing : ∃ (s' : Service) (w' : World),
    (respond .sample .reader sampleTexts pausingRequest
      (.fresh (sampleState [sampleProposal 1 .proposed]))).after (quietAt 4)
      approvingMachine.world = (.done (some pausingAnswer, s'), w') ∧ s'.state.paused = true := by
  have htest : pauses ((respond .sample .reader sampleTexts pausingRequest
      (.fresh (sampleState [sampleProposal 1 .proposed]))).after (quietAt 4)
      approvingMachine.world) = true := by decide +kernel
  generalize hafter : (respond .sample .reader sampleTexts pausingRequest _).after _ _ = r at htest
  obtain ⟨done, w⟩ := r
  unfold pauses at htest
  split at htest
  · next s' w' heq =>
    obtain ⟨rfl, rfl⟩ := Prod.mk.inj heq
    exact ⟨s', w, rfl, (Bool.and_eq_true_iff.mp htest).1⟩
  · cases htest

theorem pausingAnswer_delivered : delivered (some pausingAnswer) = .ok pausingAnswer := by
  have hshort : ¬ pausingAnswer.line.length > maxIpcBytes := by decide +kernel
  unfold delivered
  exact if_neg hshort

theorem pausingAnswer_fits : ∀ r ∈ some pausingAnswer, r.data.Keeps Fits fun _ => True := by
  intro r hm
  obtain rfl := Option.some.inj hm
  exact .obj trivial (List.forall_mem_singleton.mpr (.bool true))

/-- The client is told that the daemon has paused. -/
theorem exchange_pausing : ∃ (s' : Service) (w' : World), s'.state.paused = true ∧
    ((Client.call .reader (served .sample .reader sampleTexts) pausingRequest).run
      (.fresh (sampleState [sampleProposal 1 .proposed]))).after (quietAt 4)
      approvingMachine.world = (.done (.ok pausingAnswer, s'), w') ∧
    CarriedOut .sample (quietAt 4) (.fresh (sampleState [sampleProposal 1 .proposed]))
      approvingMachine.world s' w' (Reports (some pausingAnswer)) (some (.setPaused true)) := by
  obtain ⟨s', w', hafter, hpaused⟩ := pausing
  have hbounded : pausingRequest.Bounded := ⟨by decide, by decide, nofun, nofun⟩
  have hsends : Client.sends pausingRequest = true := by decide +kernel
  have hcall := call_after reader_exact hbounded hsends hafter
  obtain ⟨-, hsent⟩ := exchange reader_exact hbounded hcall
  obtain ⟨response, hrespond, hcarried, hdelivered⟩ := hsent hsends
  obtain ⟨hdone, -⟩ := Prod.mk.inj (hafter.symm.trans hrespond)
  obtain ⟨rfl, -⟩ := Prod.mk.inj (Prog.done.inj hdone)
  have hanswer := (hdelivered pausingAnswer_fits).trans pausingAnswer_delivered
  exact ⟨s', w', hpaused, hanswer ▸ hcall, hcarried⟩

end SortingHat
