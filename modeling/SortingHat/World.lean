import SortingHat.Effect.Rules
import SortingHat.Posix.FileSystem
import SortingHat.Journal.Table
import SortingHat.Service.State

/-!
# What survives a crash, and how the environment can act

The watched file system, the journal table and `state.json` are durable. The
service's state directory lies outside the enrolled roots, so its two stores are
kept apart from the file system the moves act on. Every system call and every
SQL statement is one atomic step; a `Tick` is what the environment decides for
it.
-/

namespace SortingHat
open Posix Effect

/-- How the agent's child process ended. -/
inductive Child where
  | notStarted
  | timedOut
  | exited (success : Bool) (stdout : Bytes)
  deriving DecidableEq, Repr

/-- The environment's part in one step: what other processes have done to the
files since the last step, whether the call fails, what the clock reads, and a
free number (a short read, an inode number, a file length). -/
structure Tick where
  others : Option FileSystem
  fault : Option Errno
  clockNs : Int
  pick : Nat
  child : Child

/-- `unixepoch()`. -/
def Tick.seconds (t : Tick) : Int := t.clockNs / 1000000000

/-- No other process touches the files. -/
def Tick.Alone (t : Tick) : Prop := t.others = none

/-- No other process touches the files and no call fails. -/
def Tick.Sound (t : Tick) : Prop := t.others = none ∧ t.fault = none

/-- A step in which nothing else happens. -/
def Tick.quiet (clockNs : Int) : Tick := ⟨none, none, clockNs, 0, .notStarted⟩

theorem Tick.Sound.alone {t : Tick} (h : t.Sound) : t.Alone := h.1

structure Digest where
  bytes : Bytes
  size : bytes.length = 32

structure AgentResponse where
  schemaVersion : Nat
  correlationId : Uuid
  destinationId : Option Uuid
  reason : String
  deriving DecidableEq, Repr

/-- The libraries the crates are built on: SHA-256, Unicode lower case, glob
patterns, the decoder for the agent's answer, and `Uuid::new_v4`, which never
gives the same id twice. -/
structure Platform where
  sha256 : Bytes → Digest
  toLowercase : String → String
  glob : Glob
  decodeResponse : Bytes → Option AgentResponse
  uuid : Nat → Uuid
  uuid_injective : Function.Injective uuid

structure World where
  fs : FileSystem
  db : Journal.Database
  stateJson : Option StateFile
  /-- How many ids have been drawn. -/
  drawn : Nat

namespace World

def files : Prog.Part World FileSystem where
  get := fs
  put fs w := { w with fs }
  get_put _ _ := rfl
  put_get _ := rfl
  put_put _ _ _ := rfl

def journal : Prog.Part World Journal.Database where
  get := db
  put db w := { w with db }
  get_put _ _ := rfl
  put_get _ := rfl
  put_put _ _ _ := rfl

def store : Prog.Part World (Option StateFile) where
  get := stateJson
  put stateJson w := { w with stateJson }
  get_put _ _ := rfl
  put_get _ := rfl
  put_put _ _ _ := rfl

def ids : Prog.Part World Nat where
  get := drawn
  put drawn w := { w with drawn }
  get_put _ _ := rfl
  put_get _ := rfl
  put_put _ _ _ := rfl

end World

abbrev Sys := Prog Tick World

/-! ## System calls -/

/-- Calls on the file system. -/
abbrev IoM := Fallible Tick FileSystem Errno

/-- The file system as a step finds it. -/
def Tick.found (t : Tick) (fs : FileSystem) : FileSystem := t.others.getD fs

theorem Tick.Alone.found {t : Tick} (h : t.Alone) (fs : FileSystem) : t.found fs = fs := by
  unfold Tick.found
  rw [h]
  rfl

/-- A system call that looks at the file system and leaves the rest to the tick. -/
def lookWith {α : Type} (f : Tick → FileSystem → Except Errno α) : IoM α :=
  ExceptT.mk (Prog.atomic fun t fs =>
    (match t.fault with
      | some e => .error e
      | none => f t (t.found fs), t.found fs))

/-- A system call that looks at the file system. -/
def look {α : Type} (f : FileSystem → Except Errno α) : IoM α := lookWith fun _ => f

/-- A system call that changes the file system, or fails and changes nothing. -/
def change {α : Type} (f : Tick → FileSystem → Except Errno (α × FileSystem)) : IoM α :=
  ExceptT.mk (Prog.atomic fun t fs =>
    match t.fault with
    | some e => (.error e, t.found fs)
    | none =>
      match f t (t.found fs) with
      | .error e => (.error e, t.found fs)
      | .ok (a, fs') => (.ok a, fs'))

section
variable {A : Tick → Prop} {α : Type} {fs : FileSystem} {Q : α → FileSystem → Prop}
  {E : Errno → FileSystem → Prop} {K : FileSystem → Prop}

theorem lookWith_wp {f : Tick → FileSystem → Except Errno α} (hA : ∀ t, A t → t.Alone) (hK : K fs)
    (hE : ∀ t e, A t → t.fault = some e → E e fs)
    (h : ∀ t, A t → t.fault = none →
      (∀ a, f t fs = .ok a → Q a fs) ∧ ∀ e, f t fs = .error e → E e fs) :
    wpE A (lookWith f) Q E K fs := by
  refine ⟨hK, fun t ht => ?_⟩
  dsimp only
  rw [(hA t ht).found]
  cases hf : t.fault with
  | some e => exact hE t e ht hf
  | none =>
    dsimp only
    obtain ⟨hok, herr⟩ := h t ht hf
    cases hr : f t fs with
    | ok a => exact hok a hr
    | error e => exact herr e hr

theorem look_wp {f : FileSystem → Except Errno α} (hA : ∀ t, A t → t.Alone) (hK : K fs)
    (hE : ∀ t e, A t → t.fault = some e → E e fs) (hQ : ∀ a, f fs = .ok a → Q a fs)
    (h : ∀ e, f fs = .error e → E e fs) : wpE A (look f) Q E K fs :=
  lookWith_wp hA hK hE fun _ _ _ => ⟨hQ, h⟩

theorem change_wp {f : Tick → FileSystem → Except Errno (α × FileSystem)}
    (hA : ∀ t, A t → t.Alone) (hK : K fs) (hE : ∀ e, E e fs)
    (hQ : ∀ t a fs', A t → f t fs = .ok (a, fs') → Q a fs') : wpE A (change f) Q E K fs := by
  refine ⟨hK, fun t ht => ?_⟩
  dsimp only
  rw [(hA t ht).found]
  cases t.fault with
  | some e => exact hE e
  | none =>
    dsimp only
    cases hr : f t fs with
    | ok r => exact hQ t r.1 r.2 ht hr
    | error e => exact hE e

end

/-- A call with no effect the model keeps: it succeeds or fails. -/
def touch : IoM Unit := look fun _ => .ok ()

/-- The clock, which cannot fail. -/
def clock {W ε : Type} : Fallible Tick W ε Int :=
  ExceptT.mk (Prog.atomic fun t w => (.ok t.clockNs, w))

/-- `Uuid::new_v4`, on the number of ids drawn so far. -/
def newV4 {ε : Type} (P : Platform) : Fallible Tick Nat ε Uuid :=
  ExceptT.mk (Prog.atomic fun _ drawn => (.ok (P.uuid drawn), drawn + 1))

end SortingHat
