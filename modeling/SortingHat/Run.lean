import SortingHat.Service.Recovery

/-!
# Runs of the service

A machine is what is durable and, while the daemon runs, its service. The daemon
serves one request at a time; a request, or an open, can be cut between any two
of its steps, and other processes change the watched files whenever they like.
-/

namespace SortingHat
open Posix Effect

/-- The requests that do something. -/
inductive Call where
  | setPaused (paused : Bool)
  | configureMetadataAgent (executable : String) (fixedArgs : List String)
  | disableAgent
  | addRoot (path : Bytes) (watched destination : Bool)
  | removeRoot (id : Uuid)
  | createRuleFromProposal (id : Uuid) (priority : Int)
  | scanOnce
  | chooseDestination (id : Uuid) (revision : Nat) (rootId : Uuid) (directory : String)
  | chooseDestinationPath (id : Uuid) (revision : Nat) (folder : Bytes)
  | renameProposal (id : Uuid) (revision : Nat) (name : String)
  | ignore (id : Uuid) (revision : Nat)
  | approve (id : Uuid) (revision : Nat)
  | undo (id : Uuid) (revision : Nat)
  deriving DecidableEq, Repr

namespace Call

/-- Serve a request; the answer itself is of no further use. -/
def perform (P : Platform) : Call → ServiceM Unit
  | setPaused paused => SortingHat.setPaused paused
  | configureMetadataAgent executable fixedArgs => do
    let _ ← SortingHat.configureMetadataAgent executable fixedArgs
  | disableAgent => do let _ ← SortingHat.disableAgent
  | addRoot path watched destination => do let _ ← SortingHat.addRoot P path watched destination
  | removeRoot id => SortingHat.removeRoot id
  | createRuleFromProposal id priority => do
    let _ ← SortingHat.createRuleFromProposal P id priority
  | scanOnce => do let _ ← SortingHat.scanOnce P
  | chooseDestination id revision rootId directory => do
    let _ ← SortingHat.chooseDestination id revision rootId directory
  | chooseDestinationPath id revision folder => do
    let _ ← SortingHat.chooseDestinationPath P id revision folder
  | renameProposal id revision name => do let _ ← SortingHat.renameProposal id revision name
  | ignore id revision => do let _ ← SortingHat.ignore id revision
  | approve id revision => do let _ ← SortingHat.approve P id revision
  | undo id revision => do let _ ← SortingHat.undo P id revision

/-- The proposal and the revision a request acts on. -/
def presents : Call → Option (Uuid × Nat)
  | chooseDestination id revision _ _ | chooseDestinationPath id revision _
  | renameProposal id revision _ | ignore id revision | approve id revision | undo id revision =>
    some (id, revision)
  | _ => none

end Call

structure Machine where
  world : World
  service : Option Service

/-- Before the first open. -/
def Machine.initial (fs : FileSystem) : Machine :=
  { world := { fs, db := .empty, stateJson := none, drawn := 0 }, service := none }

inductive Event where
  /-- The daemon answered, with `ok` or an error. -/
  | answered (call : Call) (ok : Bool)
  /-- The daemon ended, between requests or inside one. -/
  | died (call : Option Call)
  | opened
  /-- An open that returned an error or was cut. -/
  | stopped
  | files
  deriving DecidableEq, Repr

/-- One request or one open, whole or cut. The ticks are the environment's. -/
inductive Step (P : Platform) : Machine → Event → Machine → Prop where
  | served {w w' : World} {s s' : Service} {call : Call} {ticks : List Tick}
      {r : Except ServiceError Unit}
      (h : ((call.perform P).start s).after ticks w = (.done (r, s'), w')) :
      Step P ⟨w, some s⟩ (.answered call r.isOk) ⟨w', some s'⟩
  | cut {w w' : World} {s : Service} {call : Call} {ticks : List Tick}
      {rest : Sys (Except ServiceError Unit × Service)}
      (h : ((call.perform P).start s).after ticks w = (rest, w')) :
      Step P ⟨w, some s⟩ (.died call) ⟨w', none⟩
  | ended {w : World} {s : Service} : Step P ⟨w, some s⟩ (.died none) ⟨w, none⟩
  | opened {w w' : World} {s : Service} {ticks : List Tick}
      (h : (ExceptT.run (Service.open P)).after ticks w = (.done (.ok s), w')) :
      Step P ⟨w, none⟩ .opened ⟨w', some s⟩
  | stopped {w w' : World} {ticks : List Tick} {rest : Sys (Except ServiceError Service)}
      (h : (ExceptT.run (Service.open P)).after ticks w = (rest, w')) :
      Step P ⟨w, none⟩ .stopped ⟨w', none⟩
  | files {w : World} {service : Option Service} (fs : FileSystem) :
      Step P ⟨w, service⟩ .files ⟨{ w with fs }, service⟩

/-- A run from `m`, its events oldest first. -/
inductive Run (P : Platform) (m : Machine) : List Event → Machine → Prop where
  | nil : Run P m [] m
  | snoc {events : List Event} {event : Event} {m' m'' : Machine} :
      Run P m events m' → Step P m' event m'' → Run P m (events ++ [event]) m''

/-- A run whose every step meets `C`, a condition on the machine before it. -/
inductive RunWhere (P : Platform) (C : Machine → Event → Prop) (m : Machine) :
    List Event → Machine → Prop where
  | nil : RunWhere P C m [] m
  | snoc {events : List Event} {event : Event} {m' m'' : Machine} :
      RunWhere P C m events m' → C m' event → Step P m' event m'' →
        RunWhere P C m (events ++ [event]) m''

theorem RunWhere.run {P : Platform} {C : Machine → Event → Prop} {m m' : Machine}
    {events : List Event} (h : RunWhere P C m events m') : Run P m events m' := by
  induction h with
  | nil => exact .nil
  | snoc _ _ hstep ih => exact .snoc ih hstep

end SortingHat
