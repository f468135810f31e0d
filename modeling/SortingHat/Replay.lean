import SortingHat.Run

/-!
# Runs that can be computed

A command is one step of a run with the environment's ticks written out;
`replay?` carries out a list of them. Facts that need one concrete run read it
off here, on a small file system: `/w` is watched and holds the file `a`, `/d` is
a destination on the same file system and `/x` one on another.
-/

namespace SortingHat
open Posix Effect

inductive Command where
  | serve (call : Call) (ticks : List Tick)
  | cut (call : Call) (ticks : List Tick)
  | quit
  | start (ticks : List Tick)
  | stop (ticks : List Tick)
  | files (change : FileSystem → FileSystem)

/-- One step, when the machine can take it. -/
def Machine.step? (P : Platform) (m : Machine) : Command → Option (Event × Machine)
  | .serve call ticks =>
    match m with
    | ⟨_, none⟩ => none
    | ⟨w, some s⟩ =>
      match ((call.perform P).start s).after ticks w with
      | (.done (r, s'), w') => some (.answered call r.isOk, ⟨w', some s'⟩)
      | (.step _ _, _) => none
  | .cut call ticks =>
    match m with
    | ⟨_, none⟩ => none
    | ⟨w, some s⟩ => some (.died call, ⟨(((call.perform P).start s).after ticks w).2, none⟩)
  | .quit =>
    match m with
    | ⟨_, none⟩ => none
    | ⟨w, some _⟩ => some (.died none, ⟨w, none⟩)
  | .start ticks =>
    match m with
    | ⟨_, some _⟩ => none
    | ⟨w, none⟩ =>
      match (ExceptT.run (Service.open P)).after ticks w with
      | (.done (.ok s), w') => some (.opened, ⟨w', some s⟩)
      | (.done (.error _), _) => none
      | (.step _ _, _) => none
  | .stop ticks =>
    match m with
    | ⟨_, some _⟩ => none
    | ⟨w, none⟩ => some (.stopped, ⟨((ExceptT.run (Service.open P)).after ticks w).2, none⟩)
  | .files change => some (.files, ⟨{ m.world with fs := change m.world.fs }, m.service⟩)

def Machine.replay? (P : Platform) : Machine → List Command → Option (List Event × Machine)
  | m, [] => some ([], m)
  | m, command :: commands => do
    let (event, m) ← m.step? P command
    let (events, m) ← m.replay? P commands
    return (event :: events, m)

section
variable {P : Platform} {m m' m'' : Machine} {event : Event} {events : List Event}

theorem step_sound {command : Command} (h : m.step? P command = some (event, m')) :
    Step P m event m' := by
  obtain ⟨w, service⟩ := m
  cases command with
  | serve call ticks =>
    cases service with
    | none => cases h
    | some s =>
      unfold Machine.step? at h
      dsimp only at h
      split at h
      · next hr =>
        cases h
        exact .served hr
      · cases h
  | cut call ticks =>
    cases service with
    | none => cases h
    | some s =>
      cases h
      exact .cut rfl
  | quit =>
    cases service with
    | none => cases h
    | some s =>
      cases h
      exact .ended
  | start ticks =>
    cases service with
    | some s => cases h
    | none =>
      unfold Machine.step? at h
      dsimp only at h
      split at h
      · next hr =>
        cases h
        exact .opened hr
      · cases h
      · cases h
  | stop ticks =>
    cases service with
    | some s => cases h
    | none =>
      cases h
      exact .stopped rfl
  | files change =>
    cases h
    exact .files _

theorem Run.cons (hstep : Step P m event m') (h : Run P m' events m'') :
    Run P m (event :: events) m'' := by
  induction h with
  | nil => exact .snoc .nil hstep
  | snoc _ hlast ih => exact .snoc ih hlast

theorem replay_cons {command : Command} {commands : List Command}
    (h : m.replay? P (command :: commands) = some (events, m')) :
    ∃ event m₁ events₁, m.step? P command = some (event, m₁) ∧
      m₁.replay? P commands = some (events₁, m') ∧ events = event :: events₁ := by
  unfold Machine.replay? at h
  cases hs : m.step? P command with
  | none => rw [hs] at h; cases h
  | some r =>
    rw [hs] at h
    cases hr : r.2.replay? P commands with
    | none => simp [hr] at h
    | some r' =>
      simp only [hr, Option.bind_eq_bind, Option.bind_some, Option.pure_def,
        Option.some.injEq, Prod.mk.injEq] at h
      obtain ⟨rfl, rfl⟩ := h
      exact ⟨r.1, r.2, r'.1, rfl, hr, rfl⟩

/-- What is replayed is a run. -/
theorem replay_sound {commands : List Command}
    (h : m.replay? P commands = some (events, m')) : Run P m events m' := by
  induction commands generalizing m events with
  | nil =>
    cases h
    exact .nil
  | cons command commands ih =>
    obtain ⟨event, m₁, events₁, hstep, hrest, rfl⟩ := replay_cons h
    exact .cons (step_sound hstep) (ih hrest)

/-- A test on what a program has returned. -/
theorem exists_returned {C W ε α σ : Type} {p : Prog C W (Except ε α × σ)} (test : α → σ → Bool)
    (h : p.result?.any (fun r => r.1.toOption.any fun a => test a r.2) = true) :
    ∃ a s, p = .done (.ok a, s) ∧ test a s = true := by
  cases p with
  | step u n => cases h
  | done r =>
    obtain ⟨e | a, s⟩ := r
    · cases h
    · exact ⟨a, s, rfl, h⟩

/-- A test on what is replayed. -/
theorem exists_replay (commands : List Command) (test : List Event → Machine → Bool)
    (h : (m.replay? P commands).any (fun r => test r.1 r.2) = true) :
    ∃ events m', m.replay? P commands = some (events, m') ∧ test events m' = true := by
  cases hr : m.replay? P commands with
  | none => rw [hr] at h; cases h
  | some r =>
    rw [hr] at h
    exact ⟨r.1, r.2, rfl, h⟩

/-- A test on what is replayed, passed, is a run that passes it. -/
theorem exists_run (commands : List Command) (test : List Event → Machine → Bool)
    (h : (m.replay? P commands).any (fun r => test r.1 r.2) = true) :
    ∃ events m', Run P m events m' ∧ test events m' = true := by
  obtain ⟨events, m', hr, htest⟩ := exists_replay commands test h
  exact ⟨events, m', replay_sound hr, htest⟩

/-- The same, with an open that succeeds afterwards. -/
theorem exists_opened (commands : List Command) (ticks : List Tick)
    (test : List Event → Machine → Bool)
    (h : (m.replay? P commands).any (fun r => test r.1 r.2 &&
      (r.2.step? P (.start ticks)).any fun o => o.1 = .opened) = true) :
    ∃ events m' m'', Run P m events m' ∧ test events m' = true ∧ Step P m' .opened m'' := by
  obtain ⟨events, m', hrun, htest⟩ := exists_run commands (fun events m' => test events m' &&
    (m'.step? P (.start ticks)).any fun o => o.1 = .opened) h
  obtain ⟨hpass, hopens⟩ := Bool.and_eq_true_iff.mp htest
  cases ho : m'.step? P (.start ticks) with
  | none => rw [ho] at hopens; cases hopens
  | some o =>
    rw [ho] at hopens
    obtain ⟨event, m''⟩ := o
    obtain rfl : event = .opened := of_decide_eq_true hopens
    exact ⟨events, m', m'', hrun, hpass, step_sound ho⟩

/-- The same request answered at the end of a replay, and the test passed. -/
theorem exists_refused (commands : List Command) (call : Call)
    (ticks : List Tick) (test : Machine → Machine → Bool)
    (h : (m.replay? P commands).any (fun r => (r.2.step? P (.serve call ticks)).any fun o =>
      o.1 = .answered call false && test r.2 o.2) = true) :
    ∃ events m₁ m₂, Run P m events m₁ ∧ Step P m₁ (.answered call false) m₂ ∧ test m₁ m₂ = true := by
  obtain ⟨events, m₁, hrun, htest⟩ := exists_run commands (fun _ m₁ =>
    (m₁.step? P (.serve call ticks)).any fun o => o.1 = .answered call false && test m₁ o.2) h
  obtain ⟨⟨event, m₂⟩, hstep, htest⟩ := (Option.any_eq_true _ _).mp htest
  obtain ⟨hevent, htest⟩ := Bool.and_eq_true_iff.mp htest
  obtain rfl : event = .answered call false := of_decide_eq_true hevent
  exact ⟨events, m₁, m₂, hrun, step_sound hstep, htest⟩

/-- The condition holds before every step of the replay. -/
def Machine.meets? (P : Platform) (C : Machine → Event → Prop)
    [∀ m event, Decidable (C m event)] : Machine → List Command → Bool
  | _, [] => true
  | m, command :: commands =>
    (m.step? P command).all fun r => decide (C m r.1) && r.2.meets? P C commands

theorem RunWhere.cons {C : Machine → Event → Prop} (hC : C m event) (hstep : Step P m event m')
    (h : RunWhere P C m' events m'') : RunWhere P C m (event :: events) m'' := by
  induction h with
  | nil => exact .snoc .nil hC hstep
  | snoc _ hC' hlast ih => exact .snoc ih hC' hlast

theorem replay_meets {C : Machine → Event → Prop} [∀ m event, Decidable (C m event)]
    {commands : List Command} (h : m.replay? P commands = some (events, m'))
    (hm : m.meets? P C commands = true) : RunWhere P C m events m' := by
  induction commands generalizing m events with
  | nil =>
    cases h
    exact .nil
  | cons command commands ih =>
    obtain ⟨event, m₁, events₁, hstep, hrest, rfl⟩ := replay_cons h
    unfold Machine.meets? at hm
    rw [hstep] at hm
    obtain ⟨hnow, hlater⟩ := Bool.and_eq_true_iff.mp hm
    exact .cons (of_decide_eq_true hnow) (step_sound hstep) (ih hrest hlater)

/-- A run on a condition, with a test on what it ends in. -/
theorem exists_run_where (C : Machine → Event → Prop) [∀ m event, Decidable (C m event)]
    (commands : List Command) (test : List Event → Machine → Bool)
    (h : (m.replay? P commands).any (fun r => m.meets? P C commands && test r.1 r.2) = true) :
    ∃ events m', RunWhere P C m events m' ∧ test events m' = true := by
  obtain ⟨events, m', hr, htest⟩ := exists_replay commands
    (fun events m' => m.meets? P C commands && test events m') h
  obtain ⟨hm, htest⟩ := Bool.and_eq_true_iff.mp htest
  exact ⟨events, m', replay_meets hr hm, htest⟩

/-- A run whose events all meet the condition, whatever the machine. -/
theorem Run.meets {C : Machine → Event → Prop} (h : Run P m events m')
    (hC : ∀ event ∈ events, ∀ m, C m event) : RunWhere P C m events m' := by
  induction h with
  | nil => exact .nil
  | @snoc events event _ _ _ hstep ih =>
    refine .snoc (ih fun e he => hC e (List.mem_append_left _ he)) ?_ hstep
    exact hC event (List.mem_append_right _ (List.mem_singleton_self event)) _

end

/-! ## A small system -/

/-- The libraries as they behave on the contents and the ASCII names below. -/
def Platform.sample : Platform where
  sha256 data :=
    if data = bytes "hi" then
      ⟨[143, 67, 67, 70, 100, 143, 107, 150, 223, 137, 221, 169, 1, 197, 23, 107, 16, 166, 216,
        57, 97, 221, 60, 26, 200, 139, 89, 178, 220, 50, 122, 164], rfl⟩
    else
      ⟨[227, 176, 196, 66, 152, 252, 28, 20, 154, 251, 244, 200, 153, 111, 185, 36, 39, 174, 65,
        228, 100, 155, 147, 76, 164, 149, 153, 27, 120, 82, 184, 85], rfl⟩
  toLowercase := Text.toAsciiLowercase
  glob _ := none
  decodeResponse _ := none
  uuid := Uuid.mk
  uuid_injective _ _ h := Uuid.mk.inj h

def folder (entries : List (Bytes × InodeId)) : Inode :=
  { node := .directory entries, links := 2, modifiedNs := 0, accessedNs := 0, mode := 493 }

def file (content : Bytes) : Inode :=
  { node := .regular content, links := 1, modifiedNs := 5, accessedNs := 5, mode := 420 }

def sampleFiles : FileSystem where
  inodes i :=
    [(⟨0, 1⟩, folder [(bytes "w", ⟨0, 2⟩), (bytes "d", ⟨0, 3⟩), (bytes "x", ⟨1, 1⟩)]),
     (⟨0, 2⟩, folder [(bytes "a", ⟨0, 4⟩)]), (⟨0, 3⟩, folder []),
     (⟨1, 1⟩, folder []), ((⟨0, 4⟩ : InodeId), file (bytes "hi"))].lookup i
  root := ⟨0, 1⟩
  cwd := []

/-- The same with a second file `b` in `/w`. -/
def twoFiles : FileSystem where
  inodes i :=
    if i = ⟨0, 2⟩ then some (folder [(bytes "a", ⟨0, 4⟩), (bytes "b", ⟨0, 5⟩)])
    else if i = ⟨0, 5⟩ then some (file (bytes "hi"))
    else sampleFiles.inodes i
  root := sampleFiles.root
  cwd := sampleFiles.cwd

/-- Ticks of a second in which nothing else happens, as many as any request takes. -/
def quietAt (second : Int) : List Tick := List.replicate 60 (Tick.quiet (second * 1000000000))

theorem quietAt_alone {second : Int} : ∀ t ∈ quietAt second, t.Alone := by
  intro t ht
  obtain rfl := List.eq_of_mem_replicate ht
  rfl

/-- The proposal to move `/w/a` to `/d`. -/
def sampleProposal (revision : Nat) (status : Status) : Proposal where
  id := ⟨2⟩
  revision
  sourceRootId := ⟨0⟩
  sourceRelative := encodeRelative (bytes "a")
  sourceDisplay := "/w/a"
  destination := some ⟨⟨1⟩, "."⟩
  destinationName := Text.FileName.ofLossy (bytes "a")
  destinationDisplay := some "/d/./a"
  reason := "No deterministic rule matched"
  provenance := "deterministic_abstain"
  warning := none
  status
  size := 2
  device := 0
  inode := 4
  modifiedNs := 5

def sampleRow (revision : Int) (state : Journal.State) : Journal.Row where
  id := ⟨2⟩
  revision
  state := state.asStr
  sourceToken := bytes "/w/a"
  destinationToken := bytes "/d/./a"
  size := 2
  sha256 := none
  updatedAt := 0

def sampleState (proposals : List Proposal) : PersistentState :=
  { PersistentState.initial with
    roots := [⟨⟨0⟩, "/w", true, false⟩, ⟨⟨1⟩, "/d", false, true⟩], proposals }

/-- What a crash leaves behind of one row and the queue saved last. -/
def sampleWorld (fs : FileSystem) (row : Journal.Row) (state : PersistentState) : World where
  fs
  db := ⟨[row], [row], List.nodup_singleton _⟩
  stateJson := some ⟨state.bodyLength, some state⟩
  drawn := 3

/-- The daemon is opened, `/w` is enrolled to be watched and the other folder as a
destination (ids 0 and 1), and two scans propose the file (id 2). -/
def Command.enrol (folder : Bytes) : List Command :=
  [.start (quietAt 0), .serve (.addRoot (bytes "/w") true false) (quietAt 0),
   .serve (.addRoot folder false true) (quietAt 0), .serve .scanOnce (quietAt 0),
   .serve .scanOnce (quietAt 2)]

end SortingHat
