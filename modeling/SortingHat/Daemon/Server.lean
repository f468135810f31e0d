import SortingHat.Daemon.Codec
import SortingHat.Service.Exhaustion

/-!
# The daemon

The loop of `sortinghatd`: from the bytes of a connection to a call of the service, and from
its result to the line that is sent back.

* `respond`, `handle`, `Turn.run`: the daemon as it is written;
* `Turn.calls`: what a turn of the loop asks of the service;
* `DaemonRun`: the daemon's runs, with every connection, scan, end and interference;
* `dispatch_carries`: a request is the call it stands for, and what is shown of its result;
* `daemon_refines`: whatever is sent to it, the daemon does what its service may do, and no
  more than it is asked.
-/

namespace SortingHat
open Posix Effect Text

/-! ## Texts of errors -/

/-- What the system and SQLite say of their errors. -/
structure Texts where
  errno : Errno → String
  database : String

def FsError.text (texts : Texts) : FsError → String
  | .unsafePath => "unsafe path"
  | .unsafeSource => "source is not a single-link regular file"
  | .oversized => "file exceeds inspection limit"
  | .collision => "destination exists"
  | .io e => "filesystem error: " ++ texts.errno e
  | .identityChanged => "source identity changed"
  | .verificationFailed => "verification failed"

def Journal.JournalError.text (texts : Texts) : Journal.JournalError → String
  | .database => "database: " ++ texts.database
  | .limit => "active journal limit reached"
  | .notFound => "entry not found"
  | .revisionConflict => "revision conflict"
  | .invalidTransition => "invalid state transition"
  | .corruptState => "corrupt state"
  | .range => "numeric value out of range"

def ServiceError.text (texts : Texts) : ServiceError → String
  | .fs e => "filesystem: " ++ e.text texts
  | .journal e => "journal: " ++ e.text texts
  | .io e => "I/O: " ++ texts.errno e
  | .malformedState => "state is malformed or too large"
  | .limit => "configured limit reached"
  | .notFound => "item not found"
  | .revisionConflict => "revision conflict"
  | .destinationRequired => "operation requires a destination"
  | .collision => "destination collision"
  | .unsafePath => "unsafe or unregistered path"

/-! ## One connection -/

/-- An accepted connection: whether the peer is the daemon's user, what it sends, and what the
errors are called while it is served. -/
structure Connection where
  owner : Bool
  stream : Stream Errno
  texts : Texts

/-- What `handle` leaves behind. -/
inductive Reply where
  | closed
  | sent (response : Response)
  /-- `json!` panics, and the daemon ends. -/
  | panicked

/-- The answer to a request that is refused. -/
def Request.refused (request : Request) (state message : String) : Response :=
  { schemaVersion := 1, correlationId := request.correlationId, ok := false, state, message
    data := .null }

/-- The data of a response is a `Value`, that keeps fields in the order of their keys. -/
def Response.kept (response : Response) : Response := { response with data := response.data.sorted }

/-- The answer to a request, nothing where `json!` panics. -/
def respond (P : Platform) (codec : Codec) (texts : Texts) (request : Request) (s : Service) :
    Sys (Option Response × Service) :=
  if validateRequest request = false then
    .done (some (request.refused "rejected" "invalid request"), s)
  else
    (dispatch P codec.arguments request).start s >>= fun r => match r with
      | (.ok response, s') => .done (response.map Response.kept, s')
      | (.error e, s') => .done (some (request.refused (errorState e) (e.text texts)), s')

/-- The request of a connection, where its line is one. -/
def Connection.request? (codec : Codec) (connection : Connection) : Option Request :=
  match connection.stream.readLine (maxIpcBytes + 1) with
  | .error _ => none
  | .ok line => if line.length > maxIpcBytes then none else codec.request line

/-- `handle`. Whether the peer takes the answer makes no difference. -/
def handle (P : Platform) (codec : Codec) (connection : Connection) (s : Service) :
    Sys (Reply × Service) :=
  match connection.request? codec with
  | none => .done (.closed, s)
  | some request =>
    respond P codec connection.texts request s >>= fun r => match r with
      | (some response, s') => .done (.sent response, s')
      | (none, s') => .done (.panicked, s')

/-! ## The loop -/

/-- A turn of the loop: the connection `accept` gives, if one waits, and whether two seconds
have passed since the last scan. -/
structure Turn where
  accepted : Option Connection
  due : Bool

def Turn.connected (P : Platform) (codec : Codec) (turn : Turn) (s : Service) :
    Sys (Reply × Service) :=
  match turn.accepted with
  | none => .done (.closed, s)
  | some connection => if connection.owner then handle P codec connection s else .done (.closed, s)

/-- Behind the connection: a scan when it is due, and whether there is a next turn. -/
def Turn.behind (P : Platform) (turn : Turn) : Reply × Service → Sys (Bool × Service)
  | (.panicked, s) => .done (false, s)
  | (_, s) =>
    if turn.due then (scanOnce P).start s >>= fun r => .done (true, r.2) else .done (true, s)

def Turn.run (P : Platform) (codec : Codec) (turn : Turn) (s : Service) : Sys (Bool × Service) :=
  turn.connected P codec s >>= turn.behind P

inductive DaemonEvent where
  | turned (turn : Turn)
  /-- The daemon ended, in a turn or between two. -/
  | died (turn : Option Turn)
  | opened
  | stopped
  | files

/-- One turn of the loop, or one open, whole or cut. -/
inductive DaemonStep (P : Platform) (codec : Codec) : Machine → DaemonEvent → Machine → Prop where
  | turned {w w' : World} {s s' : Service} {turn : Turn} {ticks : List Tick}
      (h : (turn.run P codec s).after ticks w = (.done (true, s'), w')) :
      DaemonStep P codec ⟨w, some s⟩ (.turned turn) ⟨w', some s'⟩
  /-- The daemon panics, or is ended inside the turn or right behind it. -/
  | cut {w w' : World} {s : Service} {turn : Turn} {ticks : List Tick} {rest : Sys (Bool × Service)}
      (h : (turn.run P codec s).after ticks w = (rest, w')) :
      DaemonStep P codec ⟨w, some s⟩ (.died turn) ⟨w', none⟩
  /-- `accept` fails, or the daemon is ended while it sleeps. -/
  | ended {w : World} {s : Service} : DaemonStep P codec ⟨w, some s⟩ (.died none) ⟨w, none⟩
  | opened {w w' : World} {s : Service} {ticks : List Tick}
      (h : (ExceptT.run (Service.open P)).after ticks w = (.done (.ok s), w')) :
      DaemonStep P codec ⟨w, none⟩ .opened ⟨w', some s⟩
  | stopped {w w' : World} {ticks : List Tick} {rest : Sys (Except ServiceError Service)}
      (h : (ExceptT.run (Service.open P)).after ticks w = (rest, w')) :
      DaemonStep P codec ⟨w, none⟩ .stopped ⟨w', none⟩
  | files {w : World} {service : Option Service} (fs : FileSystem) :
      DaemonStep P codec ⟨w, service⟩ .files ⟨{ w with fs }, service⟩

inductive DaemonRun (P : Platform) (codec : Codec) (m : Machine) : List DaemonEvent → Machine → Prop where
  | nil : DaemonRun P codec m [] m
  | snoc {events : List DaemonEvent} {event : DaemonEvent} {m' m'' : Machine} :
      DaemonRun P codec m events m' → DaemonStep P codec m' event m'' →
        DaemonRun P codec m (events ++ [event]) m''

/-! ## Calls -/

/-- The call a request stands for, nothing where it changes nothing. -/
def Request.call? (D : Decoders) (request : Request) : Verb → Option Call
  | .status | .rootsList | .queueList | .proposalShow | .rulesList | .agentStatus => none
  | .pause => some (.setPaused true)
  | .resume => some (.setPaused false)
  | .scan => some .scanOnce
  | .rootsAdd => do
    let arg ← request.argument.bind D.rootAdd
    some (.addRoot arg.path arg.watched arg.destination)
  | .rootsRemove => do
    let id ← request.proposalId
    some (.removeRoot id)
  | .proposalDestination => do
    let arg ← request.argument.bind D.destinationArg
    let id ← request.proposalId
    let revision ← request.revision
    some (.chooseDestination id revision arg.rootId arg.directory)
  | .proposalChooseFolder => do
    let id ← request.proposalId
    let revision ← request.revision
    let folder ← request.argument
    some (.chooseDestinationPath id revision (bytes folder))
  | .proposalRename => do
    let id ← request.proposalId
    let revision ← request.revision
    let name ← request.argument
    some (.renameProposal id revision name)
  | .proposalApprove => do
    let id ← request.proposalId
    let revision ← request.revision
    some (.approve id revision)
  | .proposalIgnore => do
    let id ← request.proposalId
    let revision ← request.revision
    some (.ignore id revision)
  | .ruleCreate => do
    let priority ← request.argument.bind parseI32
    let id ← request.proposalId
    some (.createRuleFromProposal id priority)
  | .agentEnable => do
    let arg ← request.argument.bind D.agentArg
    some (.configureMetadataAgent arg.executable arg.fixedArgs)
  | .agentDisable => some .disableAgent
  | .undo => do
    let id ← request.proposalId
    let revision ← request.revision
    some (.undo id revision)

/-- The call of a request, when it is valid. -/
def Request.asks? (D : Decoders) (request : Request) : Option Call :=
  if validateRequest request then do
    let verb ← Verb.ofText? request.action
    request.call? D verb
  else none

/-- What the peer asks for, when it is the daemon's user. -/
def Connection.asks? (codec : Codec) (connection : Connection) : Option Call :=
  if connection.owner then do
    let request ← connection.request? codec
    request.asks? codec.arguments
  else none

/-- What a turn asks of the service behind its connection. -/
def Turn.scans (turn : Turn) : List Call := if turn.due then [.scanOnce] else []

/-- What a turn asks of the service, in its order. -/
def Turn.calls (codec : Codec) (turn : Turn) : List Call :=
  (turn.accepted.bind (Connection.asks? codec)).toList ++ turn.scans

section
variable {P : Platform} {codec : Codec} {D : Decoders} {α β γ : Type} {s s' : Service} {w w' : World}
  {call : Option Call} {ticks : List Tick}

/-- A program does one call and makes something of its result, that `T` holds of, or it does
nothing. -/
def Carries (P : Platform) (s : Service) (T : β → Bool → Prop) (x : Sys (β × Service)) :
    Option Call → Prop
  | some call => ∃ (α : Type) (op : Sys (Except ServiceError α × Service))
      (shown : Except ServiceError α × Service → β),
      x = (op >>= fun r => .done (shown r, r.2)) ∧
      (call.perform P).start s = (op >>= fun r => .done (r.1.map fun _ => (), r.2)) ∧
      ∀ r, T (shown r) r.1.isOk
  | none => ∃ b, x = .done (b, s)

/-- The result of a call, and whether it is one. -/
def Succeeds (r : Except ServiceError β) (ok : Bool) : Prop := r.isOk = ok

theorem Carries.map {x : Sys (β × Service)} {T : β → Bool → Prop} {T' : γ → Bool → Prop}
    (h : Carries P s T x call) {f : β × Service → γ} {k : β × Service → Sys (γ × Service)}
    (hk : ∀ r, k r = .done (f r, r.2)) (hT : ∀ b s ok, T b ok → T' (f (b, s)) ok) :
    Carries P s T' (x >>= k) call := by
  cases call with
  | none =>
    obtain ⟨b, rfl⟩ := h
    exact ⟨f (b, s), hk (b, s)⟩
  | some call =>
    obtain ⟨α, op, g, rfl, hcall, hshown⟩ := h
    refine ⟨α, op, fun r => f (g r, r.2), ?_, hcall, fun r => hT _ _ _ (hshown r)⟩
    rw [Prog.bind_assoc]
    congr 1
    funext r
    exact hk (g r, r.2)

theorem start_map (op : ServiceM α) (g : α → β) :
    (op >>= fun a => pure (g a)).start s = op.start s >>= fun r => .done (r.1.map g, r.2) := by
  rw [start_bind]
  congr 1
  funext r
  obtain ⟨r, s'⟩ := r
  cases r <;> rfl

/-- The data of an operation that a call performs. -/
theorem carries_op {call : Call} {op : ServiceM α} {g : α → β}
    (hcall : call.perform P = op >>= fun _ => pure ()) :
    Carries P s Succeeds ((op >>= fun a => pure (g a)).start s) (some call) := by
  refine ⟨α, op.start s, fun r => r.1.map g, start_map op g, ?_, ?_⟩
  · rw [hcall]
    exact start_map op fun _ => ()
  · rintro ⟨r, s'⟩
    cases r <;> rfl

theorem carries_unit {call : Call} {op : ServiceM Unit} {b : β} (hcall : call.perform P = op) :
    Carries P s Succeeds ((op >>= fun _ => pure b).start s) (some call) := by
  apply carries_op (g := fun _ => b)
  rw [hcall]
  exact (bind_pure op).symm

/-- Where a part of the request is missing, nothing is done. -/
theorem carries_orFail {o : Option α} {e : ServiceError} {f : α → ServiceM β}
    {g : α → Option Call} (h : ∀ a, Carries P s Succeeds ((f a).start s) (g a)) :
    Carries P s Succeeds ((orFail o e >>= f).start s) (o.bind g) := by
  cases o with
  | none => exact ⟨_, rfl⟩
  | some a => exact h a

theorem carries_none {o : Option α} {e : ServiceError} {f : α → ServiceM β}
    (h : ∀ a, Carries P s Succeeds ((f a).start s) none) :
    Carries P s Succeeds ((orFail o e >>= f).start s) none := by
  cases o with
  | none => exact ⟨_, rfl⟩
  | some a => exact h a

theorem carries_getState {f : PersistentState → ServiceM β}
    (h : Carries P s Succeeds ((f s.state).start s) call) :
    Carries P s Succeeds ((getState >>= f).start s) call := h

theorem carries_argument {decode : String → Option α} {request : Request} {f : α → ServiceM β}
    {g : α → Option Call} (h : ∀ a, Carries P s Succeeds ((f a).start s) (g a)) :
    Carries P s Succeeds ((parseArgument decode request >>= f).start s)
      ((request.argument.bind decode).bind g) := by
  unfold parseArgument requireArgument
  rw [bind_assoc, Option.bind_assoc]
  exact carries_orFail fun argument => carries_orFail h

/-- **A request is the call it stands for.** -/
theorem dispatchData_carries (request : Request) (verb : Verb) :
    Carries P s Succeeds ((dispatchData P D request verb).start s) (request.call? D verb) := by
  cases verb with
  | status | rootsList | queueList | rulesList | agentStatus => exact ⟨_, rfl⟩
  | pause | resume => exact carries_unit rfl
  | scan | agentDisable => exact carries_op rfl
  | rootsAdd | agentEnable => exact carries_argument fun arg => carries_op rfl
  | rootsRemove => exact carries_orFail fun id => carries_unit rfl
  | proposalShow =>
    refine carries_none fun id => carries_getState ?_
    exact carries_none fun proposal => ⟨_, rfl⟩
  | proposalDestination =>
    exact carries_argument fun arg => carries_orFail fun id => carries_orFail fun revision =>
      carries_op rfl
  | proposalChooseFolder | proposalRename =>
    exact carries_orFail fun id => carries_orFail fun revision => carries_orFail fun argument =>
      carries_op rfl
  | proposalApprove | proposalIgnore | undo =>
    exact carries_orFail fun id => carries_orFail fun revision => carries_op rfl
  | ruleCreate =>
    have hparse : dispatchData P D request .ruleCreate =
        parseArgument parseI32 request >>= fun priority => do
          let id ← requireId request
          let rule ← createRuleFromProposal P id priority
          return some rule.json := by
      rw [parseArgument, bind_assoc]
      rfl
    rw [hparse]
    exact carries_argument fun priority => carries_orFail fun id => carries_op rfl

/-- What is made of the result of a call in the state it leaves. -/
theorem Carries.bind {x : ServiceM α} (h : Carries P s Succeeds (x.start s) call)
    {f : α → ServiceM β} {g : α → Service → β} {T : Except ServiceError β → Bool → Prop}
    (hf : ∀ a s, (f a).start s = .done (.ok (g a s), s)) (hok : ∀ a s, T (.ok (g a s)) true)
    (herror : ∀ e, T (.error e) false) : Carries P s T ((x >>= f).start s) call := by
  rw [start_bind]
  apply h.map (f := fun r => match r with
    | (.ok a, s') => .ok (g a s')
    | (.error e, _) => .error e)
  · rintro ⟨r, s'⟩
    cases r with
    | ok a => exact hf a s'
    | error e => rfl
  · intro r s' ok hsucceeds
    obtain rfl : r.isOk = ok := hsucceeds
    cases r with
    | ok a => exact hok a s'
    | error e => exact herror e

/-- What a response tells of a call. -/
def Reports (response : Option Response) (ok : Bool) : Prop := ∀ r ∈ response, r.ok = ok

/-- What the result of `dispatch` tells of it. -/
def Dispatched : Except ServiceError (Option Response) → Bool → Prop
  | .ok response, ok => ok = true ∧ Reports response true
  | .error _, ok => ok = false

theorem dispatch_carries (request : Request) :
    Carries P s Dispatched ((dispatch P D request).start s)
      ((Verb.ofText? request.action).bind (request.call? D)) := by
  unfold dispatch
  cases Verb.ofText? request.action with
  | none => exact ⟨_, rfl⟩
  | some verb =>
    apply (dispatchData_carries request verb).bind fun _ _ => rfl
    · rintro data s'
      refine ⟨rfl, fun response hm => ?_⟩
      obtain ⟨value, -, rfl⟩ := Option.map_eq_some_iff.mp hm
      rfl
    · exact fun _ => rfl

theorem respond_carries (texts : Texts) (request : Request) :
    Carries P s Reports (respond P codec texts request s) (request.asks? codec.arguments) := by
  unfold respond Request.asks?
  cases hvalid : validateRequest request with
  | false => exact ⟨_, rfl⟩
  | true =>
    apply (dispatch_carries request).map (f := fun r => match r.1 with
      | .ok response => response.map Response.kept
      | .error e => some (request.refused (errorState e) (e.text texts)))
    · rintro ⟨r, s'⟩
      cases r <;> rfl
    · intro r s' ok hdispatched response hm
      cases r with
      | ok answer =>
        obtain ⟨rfl, hreports⟩ := hdispatched
        obtain ⟨r, hr, rfl⟩ := Option.map_eq_some_iff.mp hm
        exact hreports r hr
      | error e =>
        obtain rfl : ok = false := hdispatched
        obtain rfl := Option.some.inj hm
        rfl

theorem handle_carries (connection : Connection) : Carries P s (fun _ _ => True)
    (handle P codec connection s) ((connection.request? codec).bind (Request.asks? codec.arguments)) := by
  unfold handle
  cases connection.request? codec with
  | none => exact ⟨_, rfl⟩
  | some request =>
    apply (respond_carries connection.texts request).map (f := fun r => match r.1 with
      | some response => .sent response
      | none => .panicked)
    · rintro ⟨r, s'⟩
      cases r <;> rfl
    · exact fun _ _ _ _ => trivial

theorem connected_carries (turn : Turn) : Carries P s (fun _ _ => True) (turn.connected P codec s)
    (turn.accepted.bind (Connection.asks? codec)) := by
  unfold Turn.connected
  cases turn.accepted with
  | none => exact ⟨_, rfl⟩
  | some connection =>
    dsimp only [Option.bind]
    unfold Connection.asks?
    cases connection.owner with
    | false => exact ⟨_, rfl⟩
    | true => exact handle_carries connection

/-! ## Runs -/

/-- The call an event tells of. -/
def Event.call? : Event → Option Call
  | .answered call _ => some call
  | .died call => call
  | _ => none

def Event.isAnswer : Event → Bool
  | .answered _ _ => true
  | _ => false

/-- What the events of the service say of an event of the daemon: a turn that comes to its end
has made all of its calls, and one that is cut the first of them. -/
def Tells (codec : Codec) : DaemonEvent → List Event → Prop
  | .turned turn, events =>
    events.filterMap Event.call? = turn.calls codec ∧ events.all Event.isAnswer = true
  | .died turn, events =>
    events.filterMap Event.call? <+: (turn.elim [] (Turn.calls codec)) ∧
      ∃ before call, events = before ++ [.died call]
  | .opened, events => events = [.opened]
  | .stopped, events => events = [.stopped]
  | .files, events => events = [.files]

theorem Run.trans {m m' m'' : Machine} {events events' : List Event} (h : Run P m events m')
    (h' : Run P m' events' m'') : Run P m (events ++ events') m'' := by
  induction h' with
  | nil => rwa [List.append_nil]
  | snoc _ hstep ih =>
    rw [← List.append_assoc]
    exact .snoc ih hstep

theorem Step.single {m m' : Machine} {event : Event} (h : Step P m event m') :
    Run P m [event] m' := Run.snoc .nil h

/-- The call has been carried out once, and `T` holds of whether it succeeded; where there is no
call, nothing has been done. -/
def CarriedOut (P : Platform) (ticks : List Tick) (s : Service) (w : World) (s' : Service) (w' : World)
    (T : Bool → Prop) : Option Call → Prop
  | none => s' = s ∧ w' = w
  | some call => ∃ r, ((call.perform P).start s).after ticks w = (.done (r, s'), w') ∧ T r.isOk

theorem CarriedOut.mono {T T' : Bool → Prop} {call : Option Call}
    (h : CarriedOut P ticks s w s' w' T call) (hT : ∀ ok, T ok → T' ok) :
    CarriedOut P ticks s w s' w' T' call := by
  cases call with
  | none => exact h
  | some call =>
    obtain ⟨r, hserved, hr⟩ := h
    exact ⟨r, hserved, hT _ hr⟩

/-- A program that carries a call has carried it out when it comes to its end. -/
theorem Carries.done {x : Sys (β × Service)} {b : β} {T : β → Bool → Prop} (h : Carries P s T x call)
    (hafter : x.after ticks w = (.done (b, s'), w')) : CarriedOut P ticks s w s' w' (T b) call := by
  cases call with
  | none =>
    obtain ⟨b', rfl⟩ := h
    obtain ⟨hdone, rfl⟩ := Prod.mk.inj hafter
    obtain ⟨-, rfl⟩ := Prod.mk.inj (Prog.done.inj hdone)
    exact ⟨rfl, rfl⟩
  | some call =>
    obtain ⟨α, op, shown, rfl, hcall, hshown⟩ := h
    obtain ⟨⟨r, s₁⟩, w₁, hop⟩ := Prog.finished_of_bind hafter
    rw [Prog.after_bind_left hop] at hafter
    obtain ⟨hdone, rfl⟩ := Prod.mk.inj hafter
    obtain ⟨rfl, rfl⟩ := Prod.mk.inj (Prog.done.inj hdone)
    refine ⟨r.map fun _ => (), ?_, ?_⟩
    · rw [hcall, Prog.after_bind_left hop]
      rfl
    · have hok := hshown (r, s₁)
      cases r <;> exact hok

/-- So it is an answered call of the service, or nothing. -/
theorem Carries.served {x : Sys (β × Service)} {b : β} {T : β → Bool → Prop}
    (h : Carries P s T x call) (hafter : x.after ticks w = (.done (b, s'), w')) :
    ∃ events, Run P ⟨w, some s⟩ events ⟨w', some s'⟩ ∧
      events.filterMap Event.call? = call.toList ∧ events.all Event.isAnswer = true := by
  have hdone := h.done hafter
  cases call with
  | none =>
    obtain ⟨rfl, rfl⟩ := hdone
    exact ⟨[], .nil, rfl, rfl⟩
  | some call =>
    obtain ⟨r, hserved, -⟩ := hdone
    exact ⟨_, (Step.served hserved).single, rfl, rfl⟩

/-- A program that carries a call, cut. -/
theorem Carries.cut {x rest : Sys (β × Service)} {T : β → Bool → Prop} (h : Carries P s T x call)
    (hafter : x.after ticks w = (rest, w')) : Step P ⟨w, some s⟩ (.died call) ⟨w', none⟩ := by
  cases call with
  | none =>
    obtain ⟨b', rfl⟩ := h
    obtain ⟨-, rfl⟩ := Prod.mk.inj hafter
    exact .ended
  | some call =>
    obtain ⟨α, op, shown, rfl, hcall, -⟩ := h
    have hworld := congrArg Prod.snd ((Prog.after_map _ op ticks w).symm.trans hafter)
    obtain rfl : (op.after ticks w).2 = w' := hworld
    have hcut := Prog.after_map (fun r => (r.1.map fun _ => (), r.2)) op ticks w
    rw [← hcall] at hcut
    exact .cut hcut

theorem scan_carries : Carries P s (fun _ _ => True)
    ((scanOnce P).start s >>= fun r => .done (true, r.2)) (some .scanOnce) :=
  ⟨Nat, (scanOnce P).start s, fun _ => true, rfl, start_map (scanOnce P) fun _ => (),
    fun _ => trivial⟩

/-- Behind its connection a turn scans, unless it has panicked. -/
theorem behind_carries (turn : Turn) (reply : Reply) : ∃ call,
    Carries P s (fun _ _ => True) (turn.behind P (reply, s)) call ∧ call.toList <+: turn.scans ∧
      ∀ left w s' w', (turn.behind P (reply, s)).after left w = (.done (true, s'), w') →
        call.toList = turn.scans := by
  cases reply with
  | panicked =>
    exact ⟨none, ⟨false, rfl⟩, List.nil_prefix, fun _ _ _ _ h => by cases h⟩
  | closed | sent response =>
    unfold Turn.behind Turn.scans
    cases turn.due with
    | true => exact ⟨some .scanOnce, scan_carries, List.prefix_rfl, fun _ _ _ _ _ => rfl⟩
    | false => exact ⟨none, ⟨true, rfl⟩, List.prefix_rfl, fun _ _ _ _ _ => rfl⟩

/-- **A turn that comes to its end has made its calls.** -/
theorem turn_served {turn : Turn}
    (h : (turn.run P codec s).after ticks w = (.done (true, s'), w')) :
    ∃ events, Run P ⟨w, some s⟩ events ⟨w', some s'⟩ ∧ Tells codec (.turned turn) events := by
  obtain ⟨⟨reply, s₁⟩, w₁, hconnected⟩ := Prog.finished_of_bind h
  have hbehind := (Prog.after_bind_left hconnected).symm.trans h
  obtain ⟨call, hcarries, -, hall⟩ := behind_carries (P := P) (s := s₁) turn reply
  obtain ⟨events, hrun, hcalls, hanswers⟩ := (connected_carries turn).served hconnected
  obtain ⟨events', hrun', hcalls', hanswers'⟩ := hcarries.served hbehind
  refine ⟨events ++ events', hrun.trans hrun', ?_, ?_⟩
  · rw [List.filterMap_append, hcalls, hcalls', hall _ _ _ _ hbehind]
    rfl
  · rw [List.all_append, hanswers, hanswers']
    rfl

/-- **A turn that is cut has made the first of them.** -/
theorem turn_cut {turn : Turn} {rest : Sys (Bool × Service)}
    (h : (turn.run P codec s).after ticks w = (rest, w')) :
    ∃ events, Run P ⟨w, some s⟩ events ⟨w', none⟩ ∧ Tells codec (.died turn) events := by
  rcases Prog.after_bind_cases h with ⟨rest', hcut⟩ | ⟨⟨reply, s₁⟩, w₁, hconnected, hbehind⟩
  · refine ⟨_, ((connected_carries turn).cut hcut).single, ?_, [], _, rfl⟩
    have hcalls : [Event.died (turn.accepted.bind (Connection.asks? codec))].filterMap Event.call? =
        (turn.accepted.bind (Connection.asks? codec)).toList := by
      cases turn.accepted.bind (Connection.asks? codec) <;> rfl
    rw [hcalls]
    exact List.prefix_append _ _
  · obtain ⟨call, hcarries, hprefix, -⟩ := behind_carries (P := P) (s := s₁) turn reply
    obtain ⟨events, hrun, hcalls, -⟩ := (connected_carries turn).served hconnected
    refine ⟨events ++ [.died call], hrun.trans (hcarries.cut hbehind).single, ?_, events, _, rfl⟩
    have hlast : [Event.died call].filterMap Event.call? = call.toList := by
      cases call <;> rfl
    rw [List.filterMap_append, hcalls, hlast]
    exact (List.prefix_append_right_inj _).mpr hprefix

/-- **A step of the daemon is a run of the service.** -/
theorem DaemonStep.refines {m m' : Machine} {event : DaemonEvent} (h : DaemonStep P codec m event m') :
    ∃ events, Run P m events m' ∧ Tells codec event events := by
  cases h with
  | turned h => exact turn_served h
  | cut h => exact turn_cut h
  | ended => exact ⟨[.died none], Step.ended.single, List.prefix_rfl, [], none, rfl⟩
  | opened h => exact ⟨[.opened], (Step.opened h).single, rfl⟩
  | stopped h => exact ⟨[.stopped], (Step.stopped h).single, rfl⟩
  | files fs => exact ⟨[.files], (Step.files fs).single, rfl⟩

/-- **The daemon does what its service may do, and no more than it is asked.** Whatever bytes
are sent to it and however it ends, its runs are runs of the service. A turn that comes to its
end has made the call of the connection, if its user sent a valid request that has one, and then
a scan, if one was due; a turn that is cut, the first of these. -/
theorem daemon_refines {m m' : Machine} {events : List DaemonEvent}
    (h : DaemonRun P codec m events m') : ∃ parts : List (List Event),
      Run P m parts.flatten m' ∧ List.Forall₂ (Tells codec) events parts := by
  induction h with
  | nil => exact ⟨[], .nil, .nil⟩
  | snoc _ hstep ih =>
    obtain ⟨parts, hrun, htells⟩ := ih
    obtain ⟨part, hpart, htell⟩ := hstep.refines
    refine ⟨parts ++ [part], ?_, List.rel_append htells (.cons htell .nil)⟩
    rw [List.flatten_append, List.flatten_singleton]
    exact hrun.trans hpart

end

def sampleTexts : Texts := ⟨fun _ => "", ""⟩

/-- The approval of the sample, as the client asks for it. -/
def approvingRequest : Request := ⟨1, ⟨7⟩, "proposal_approve", some ⟨2⟩, some 1, none⟩

/-- It comes in just before a scan. -/
def approvingTurn : Turn where
  accepted := some ⟨true, ⟨encodeJson approvingRequest.json ++ [lineFeed], none⟩, sampleTexts⟩
  due := true

def approvingMachine : Machine :=
  ⟨sampleWorld sampleFiles (sampleRow 1 .proposed) (sampleState [sampleProposal 1 .proposed]),
    some (.fresh (sampleState [sampleProposal 1 .proposed]))⟩

/-- The turn is over, and the file has its new place. -/
def Turn.moves : Sys (Bool × Service) × World → Bool
  | (.done (true, _), w) => decide (w.fs.linkAt? ⟨⟨0, 3⟩, bytes "a"⟩ = some ⟨0, 4⟩)
  | _ => false

theorem daemon_refines_approving : ∃ (m : Machine) (parts : List (List Event)),
    m.world.fs.linkAt? ⟨⟨0, 3⟩, bytes "a"⟩ = some ⟨0, 4⟩ ∧
    Run .sample approvingMachine parts.flatten m ∧
    List.Forall₂ (Tells .reader) [.turned approvingTurn] parts := by
  have hmoves : Turn.moves ((approvingTurn.run .sample .reader
      (.fresh (sampleState [sampleProposal 1 .proposed]))).after (quietAt 4 ++ quietAt 4)
      approvingMachine.world) = true := by decide +kernel
  generalize hafter : (approvingTurn.run .sample .reader _).after _ _ = r at hmoves
  obtain ⟨done, w⟩ := r
  unfold Turn.moves at hmoves
  split at hmoves
  · next s' w' heq =>
    obtain ⟨rfl, rfl⟩ := Prod.mk.inj heq
    obtain ⟨parts, hrun, htells⟩ := daemon_refines (.snoc .nil (.turned hafter))
    exact ⟨_, parts, of_decide_eq_true hmoves, hrun, htells⟩
  · cases hmoves

end SortingHat
