import SortingHat.Service.Reopening
import SortingHat.Journal.Pruning

/-!
# What is forgotten

Two operations remove anything: retention deletes rows, pruning drops proposals.
Both take only what is finished, and so does a run whose opens see `state.json`
where it is there.

* `pruneTerminalProposals_eq`: the front of the list without what is finished;
* `Accounted`: an id that has no row ends in a terminal state;
* `Remembers`: what must still be listed;
* `Command.pursues`: a command goes on from the queue there is, or the one saved;
* `only_finished_forgotten`: all of it, for the operations, a step and a run;
* `unseen_state_forgets`: an open that does not see the file.
-/

namespace SortingHat.Journal
open Posix (Bytes)

/-- Every row is the last of its history, and a history without a row is over. -/
structure Accounted (db : Database) : Prop where
  current : ∀ row ∈ db.rows, (db.history row.id).getLast? = some row
  ended : ∀ c ∈ db.commits, (∃ row ∈ db.rows, row.id = c.id) ∨
    ∃ last, (db.history c.id).getLast? = some last ∧ last.terminal = true

section
variable {db db' : Database} {row c : Row} {id : Uuid}

theorem getLast?_history_append (h : db'.commits = db.commits ++ [c]) :
    (db'.history id).getLast? = if c.id = id then some c else (db.history id).getLast? := by
  rw [history_append db.commits c id h, List.getLast?_append]
  split <;> rfl

/-- A commit, with its row in the table. -/
theorem Accounted.commit (ha : Accounted db) (h : db'.commits = db.commits ++ [c])
    (hc : c ∈ db'.rows) (hrows : ∀ row ∈ db'.rows, row = c ∨ row ∈ db.rows ∧ row.id ≠ c.id)
    (hids : ∀ row ∈ db.rows, ∃ row' ∈ db'.rows, row'.id = row.id) : Accounted db' := by
  constructor
  · intro row hm
    rw [getLast?_history_append h]
    rcases hrows row hm with rfl | ⟨hm, hne⟩
    · rw [if_pos rfl]
    · rw [if_neg (Ne.symm hne)]
      exact ha.current row hm
  · intro d hd
    by_cases hid : c.id = d.id
    · exact .inl ⟨c, hc, hid⟩
    rw [h, List.mem_append, List.mem_singleton] at hd
    obtain hd | rfl := hd
    · rcases ha.ended d hd with ⟨row, hm, hrow⟩ | hover
      · obtain ⟨row', hm', hrow'⟩ := hids row hm
        exact .inl ⟨row', hm', hrow'.trans hrow⟩
      · rw [getLast?_history_append h, if_neg hid]
        exact .inr hover
    · exact absurd rfl hid

theorem Change.commits_prefix (h : Change db db') : db.commits <+: db'.commits := by
  cases h with
  | created h =>
    rw [(Database.insert_eq_ok h).2.2]
    exact List.prefix_append _ _
  | replaced => exact List.prefix_append _ _
  | deleted => exact List.prefix_refl _

end
end SortingHat.Journal

namespace SortingHat
open Posix Effect Text
open Journal (Row Database State Accounted)

/-! ## Proposals -/

/-- The proposal is finished, or its row has been, since there were `n` commits. -/
def Concluded (n : Nat) (db : Database) (p : Proposal) : Prop :=
  p.status.terminal = true ∨ ∃ row ∈ db.commits.drop n, row.id = p.id ∧ row.terminal = true

/-- Of `ps`, what is not concluded is still listed, and not finished. -/
def Remembers (n : Nat) (db : Database) (ps : List Proposal) (state : PersistentState) : Prop :=
  ∀ p ∈ ps, Concluded n db p ∨
    ∃ p' ∈ state.proposals, p'.id = p.id ∧ p'.status.terminal = false

section
variable {P : Platform} {A : Tick → Prop} {caller : Option Call} {lossy : Bool} {n : Nat}
  {db db' : Database} {ps : List Proposal} {p : Proposal} {s s' : Service} {w w' : World}
  {state state' : PersistentState}

theorem Remembers.refl : Remembers n db state.proposals state := by
  intro p hp
  cases ht : p.status.terminal with
  | true => exact .inl (.inl ht)
  | false => exact .inr ⟨p, hp, rfl, ht⟩

theorem Concluded.mono (h : Concluded n db p) (hdb : db.commits <+: db'.commits) :
    Concluded n db' p := by
  obtain ht | ⟨row, hm, hid, ht⟩ := h
  · exact .inl ht
  · obtain ⟨later, hlater⟩ := hdb
    refine .inr ⟨row, ?_, hid, ht⟩
    rw [← hlater, List.drop_append]
    exact List.mem_append_left _ hm

/-- What becomes of each that is listed and not finished. -/
theorem Remembers.of_each (h : Remembers n db ps state) (hdb : db.commits <+: db'.commits)
    (hstate : ∀ p ∈ state.proposals, p.status.terminal = false → Concluded n db' p ∨
      ∃ p' ∈ state'.proposals, p'.id = p.id ∧ p'.status.terminal = false) :
    Remembers n db' ps state' := by
  intro p hp
  rcases h p hp with hc | ⟨q, hq, hid, hs⟩
  · exact .inl (hc.mono hdb)
  rcases hstate q hq hs with hc | ⟨q', hq', hid', hs'⟩
  · rcases hc with ht | ⟨row, hm, hrow, ht⟩
    · rw [hs] at ht
      cases ht
    · exact .inl (.inr ⟨row, hm, hrow.trans hid, ht⟩)
  · exact .inr ⟨q', hq', hid'.trans hid, hs'⟩

/-- One proposal is changed, and may be finished with its row. -/
theorem Remembers.modify {index : Nat} {f : Proposal → Proposal} (h : Remembers n db ps state)
    (hdb : db.commits <+: db'.commits) (hid : ∀ p, (f p).id = p.id)
    (hf : ∀ p, state.proposals[index]? = some p → (f p).status.terminal = true →
      Concluded n db' p ∨ p.status.terminal = true) :
    Remembers n db' ps { state with proposals := state.proposals.modify index f } := by
  refine h.of_each hdb fun p hp hs => ?_
  obtain ⟨i, hi⟩ := List.mem_iff_getElem?.mp hp
  by_cases hix : index = i
  · subst hix
    cases ht : (f p).status.terminal with
    | true =>
      rcases hf p hi ht with hc | hterminal
      · exact .inl hc
      · rw [hs] at hterminal
        cases hterminal
    | false => exact .inr ⟨f p, mem_modify_self hi, hid p, ht⟩
  · refine .inr ⟨p, List.mem_of_getElem? (i := i) ?_, rfl, hs⟩
    change (state.proposals.modify index f)[i]? = some p
    rw [List.getElem?_modify, hi]
    simp [hix]

theorem concluded_replace (row : Row) (hn : n ≤ db.commits.length) (hid : row.id = p.id)
    (ht : row.terminal = true) : Concluded n (db.replace row) p := by
  refine .inr ⟨row, ?_, hid, ht⟩
  change row ∈ (db.commits ++ [row]).drop n
  rw [List.drop_append_of_le_length hn]
  exact List.mem_append_right _ (List.mem_singleton_self row)

theorem Remembers.settle {id : Uuid} {f : Proposal → Proposal} (h : Remembers n db ps state)
    (hdb : db.commits <+: db'.commits) (hid : ∀ p, (f p).id = p.id)
    (hf : ∀ p, p.id = id → (f p).status.terminal = true →
      Concluded n db' p ∨ p.status.terminal = true) :
    Remembers n db' ps (state.settle id f) := by
  unfold PersistentState.settle
  split
  · next index hindex =>
    refine h.modify hdb hid fun p hp ht => hf p ?_ ht
    obtain ⟨hlt, hhit, -⟩ := List.findIdx?_eq_some_iff_getElem.mp hindex
    obtain rfl := Option.some.inj ((List.getElem?_eq_getElem hlt).symm.trans hp)
    simpa using hhit
  · exact h.of_each hdb fun p hp hs => .inr ⟨p, hp, rfl, hs⟩

theorem Deed.commits_prefix (hd : Deed P A caller lossy s w s' w') :
    w.db.commits <+: w'.db.commits := by
  rcases hd.change with he | hc
  · exact he ▸ List.prefix_refl _
  · exact hc.commits_prefix

/-- Every deed remembers what is not finished. -/
theorem Deed.remembers (hd : Deed P A caller lossy s w s' w') (hn : n ≤ w.db.commits.length)
    (h : Remembers n w.db ps s.state) : Remembers n w'.db ps s'.state := by
  have hdb := hd.commits_prefix
  have hsame : s'.state.proposals = s.state.proposals → Remembers n w'.db ps s'.state := by
    intro he
    exact h.of_each hdb fun p hp hs => .inr ⟨p, he ▸ hp, rfl, hs⟩
  cases hd with
  | files | sampled | drew | paused | advised | rooted | unrooted | ruled | moved | hashed | aged
  | trimmed | installed | lost => exact hsame rfl
  | proposed =>
    exact h.of_each hdb fun p hp hs => .inr ⟨p, List.mem_append_left _ hp, rfl, hs⟩
  | redirected | renamed | approved => exact h.modify hdb (fun _ => rfl) fun _ _ ht => .inr ht
  | @finished index revision p row source next status hp hs ha hend hrev hacts now =>
    refine h.modify hdb (fun _ => rfl) fun q hq _ => .inl ?_
    obtain rfl := Option.some.inj (hq.symm.trans hp.found)
    refine concluded_replace (row.moved next now) hn hp.same ?_
    rw [Journal.Row.terminal_of_state rfl]
    rcases hend with ⟨rfl, -⟩ | ⟨rfl, -⟩ | ⟨rfl, -⟩ <;> rfl
  | @settled row source next status revision hm hs hi ha hend hrev hcaller warning now =>
    refine h.settle hdb (fun _ => rfl) fun q hq ht => .inl ?_
    refine concluded_replace (row.moved next now) hn hq.symm ?_
    rw [Journal.Row.terminal_of_state rfl]
    rcases hend with ⟨rfl, -⟩ | ⟨-, rfl⟩
    · rfl
    · cases ht
  | warned => exact h.settle hdb (fun _ => rfl) fun _ _ ht => .inr ht
  | pruned => exact h.of_each hdb fun p hp hs => .inr ⟨p, mem_pruned hp hs, rfl, hs⟩

end

/-! ## Steps -/

/-- What the machine has in its queue, or finds saved. -/
def Machine.Lists (m : Machine) (state : PersistentState) : Prop :=
  match m.service with
  | some s => state = s.state
  | none => ∃ file, m.world.stateJson = some file ∧ file.content = some state

/-- What a step knows of `ps` after it, in memory and on disk. -/
structure Remembered (ps : List Proposal) (m m' : Machine) : Prop where
  running : ∀ s', m'.service = some s' →
    Remembers m.world.db.commits.length m'.world.db ps s'.state
  saved : m'.world.stateJson = m.world.stateJson ∨ ∃ file state,
    m'.world.stateJson = some file ∧ file.content = some state ∧
      Remembers m.world.db.commits.length m'.world.db ps state

section
variable {P : Platform} {A : Tick → Prop} {caller : Option Call} {lossy : Bool} {m m' : Machine}
  {event : Event} {events : List Event} {s s' : Service} {w w' : World} {state : PersistentState}

/-- What a chain of deeds that began with the queue `ps` has in `s` and in `w`. -/
structure Remembering (ps : List Proposal) (w₀ : World) (s : Service) (w : World) : Prop where
  grown : w₀.db.commits.length ≤ w.db.commits.length
  running : Remembers w₀.db.commits.length w.db ps s.state
  saved : w.stateJson = w₀.stateJson ∨ ∃ file state, w.stateJson = some file ∧
    file.content = some state ∧ Remembers w₀.db.commits.length w.db ps state

theorem Deed.remembering {ps : List Proposal} {w₀ : World} (hd : Deed P A caller lossy s w s' w')
    (h : Remembering ps w₀ s w) : Remembering ps w₀ s' w' := by
  have hdb := hd.commits_prefix
  have hmono : ∀ state, Remembers w₀.db.commits.length w.db ps state →
      Remembers w₀.db.commits.length w'.db ps state := fun state hr =>
    hr.of_each hdb fun p hp ht => .inr ⟨p, hp, rfl, ht⟩
  refine ⟨h.grown.trans hdb.length_le, hd.remembers h.grown h.running, ?_⟩
  rcases hd.stateJson with hj | hj
  · rw [hj]
    obtain hsame | ⟨file, state, hfile, hcontent, hr⟩ := h.saved
    · exact .inl hsame
    · exact .inr ⟨file, state, hfile, hcontent, hmono state hr⟩
  · exact .inr ⟨_, s.state, hj, rfl, hmono s.state h.running⟩

theorem Deeds.remembered {service service' : Option Service}
    (h : Deeds P A caller lossy s w s' w') (hs' : ∀ s'', service' = some s'' → s'' = s') :
    Remembered s.state.proposals ⟨w, service⟩ ⟨w', service'⟩ := by
  have hkept : Remembering s.state.proposals w s' w' := by
    apply h.keeps
    · exact fun _ _ _ _ hr hd => hd.remembering hr
    · exact ⟨Nat.le_refl _, .refl, .inl rfl⟩
  exact ⟨fun s'' hs => hs' s'' hs ▸ hkept.running, hkept.saved⟩

/-- What a command begins with: the service there is, or what an open finds. -/
def Machine.Starts (m : Machine) (s : Service) : Prop :=
  match m.service with
  | some running => s = running
  | none => ∃ loaded, Finds m.world loaded ∧ s = .fresh loaded

/-- An open does not overlook what is saved. -/
def Sees (m : Machine) (command : Command) : Prop :=
  m.service = none → Overlooks m.world command.ticks = false

/-- **A command goes on from the queue there is, or the one saved.** -/
theorem Command.pursues {command : Command} (hstep : m.step? P command = some (event, m'))
    (hsees : Sees m command) :
    (∃ fs, m' = ⟨{ m.world with fs }, none⟩) ∨
      ∃ caller lossy s s', m.Starts s ∧
        Deeds P (fun _ => True) caller lossy s m.world s' m'.world ∧
        ∀ s'', m'.service = some s'' → s'' = s' := by
  obtain ⟨w, service⟩ := m
  -- a cut command leaves no service behind
  have hcut : ∀ s s' : Service, none = some s' → s' = s := by
    intro s s' h
    cases h
  cases service with
  | some s =>
    cases Command.conduct (A := fun _ => True) hstep fun _ _ => trivial with
    | served hd => exact .inr ⟨_, _, s, _, rfl, hd, fun s'' h => (Option.some.inj h).symm⟩
    | cut hd => exact .inr ⟨_, _, s, _, rfl, hd, hcut _⟩
    | ended => exact .inl ⟨w.fs, rfl⟩
    | files fs =>
      exact .inr ⟨none, false, s, s, rfl, .snoc .refl (.files fs),
        fun s'' h => (Option.some.inj h).symm⟩
  | none =>
    cases command with
    | serve _ _ | cut _ _ | quit => cases hstep
    | files change =>
      cases hstep
      exact .inl ⟨_, rfl⟩
    | start ticks =>
      have hopen := open_goes_on (P := P) (hsees rfl)
      simp only [Machine.step?] at hstep
      split at hstep
      · next s' w' hr =>
        cases hstep
        rw [show (Command.start ticks).ticks = ticks from rfl, hr] at hopen
        obtain ⟨loaded, hfinds, hd⟩ := hopen
        exact .inr ⟨_, _, _, s', ⟨loaded, hfinds, rfl⟩, hd,
          fun s'' h => (Option.some.inj h).symm⟩
      · cases hstep
      · cases hstep
    | stop ticks =>
      have hopen := open_goes_on (P := P) (hsees rfl)
      cases hstep
      rw [show (Command.stop ticks).ticks = ticks from rfl] at hopen
      have hwhere : (∃ fs, ((ExceptT.run (Service.open P)).after ticks w).2 = { w with fs }) ∨
          ∃ loaded s, Finds w loaded ∧ Deeds P (fun _ => True) none true (.fresh loaded) w s
            ((ExceptT.run (Service.open P)).after ticks w).2 := by
        cases hr : (ExceptT.run (Service.open P)).after ticks w with
        | mk prog w' =>
          rw [hr] at hopen
          cases prog with
          | step u n => exact hopen
          | done r =>
            cases r with
            | error e => exact hopen
            | ok s =>
              obtain ⟨loaded, hfinds, hd⟩ := hopen
              exact .inr ⟨loaded, s, hfinds, hd.relax⟩
      rcases hwhere with ⟨fs, hw⟩ | ⟨loaded, s', hfinds, hd⟩
      · exact .inl ⟨fs, by rw [hw]⟩
      · exact .inr ⟨_, _, _, s', ⟨loaded, hfinds, rfl⟩, hd, hcut s'⟩

theorem Machine.Lists.starts (hl : m.Lists state) (hs : m.Starts s) : s.state = state := by
  obtain ⟨w, service⟩ := m
  cases service with
  | some running =>
    obtain rfl : s = running := hs
    exact (show state = s.state from hl).symm
  | none =>
    obtain ⟨loaded, hfinds, rfl⟩ := hs
    obtain ⟨file, hfile, hcontent⟩ := hl
    exact hfinds.eq_saved hfile hcontent

/-- **A step that sees what is saved remembers it.** -/
theorem Command.remembered {command : Command} (hstep : m.step? P command = some (event, m'))
    (hsees : Sees m command) (hl : m.Lists state) : Remembered state.proposals m m' := by
  rcases command.pursues hstep hsees with ⟨fs, rfl⟩ | ⟨_, _, s, s', hs, hd, hs'⟩
  · exact ⟨nofun, .inl rfl⟩
  · obtain rfl := hl.starts hs
    exact hd.remembered hs'

/-! ## Runs -/

/-- The daemon is running. -/
def Lives (m : Machine) (_ : Command) : Prop := m.service ≠ none

/-- `state` is saved, and is what a running daemon has in its queue. -/
def Machine.Secures (m : Machine) (state : PersistentState) : Prop :=
  (∃ file, m.world.stateJson = some file ∧ file.content = some state) ∧
    ∀ s, m.service = some s → s.state = state

/-- What a run knows of `ps` since `w₀`, where `state` was saved. -/
structure Recollects (state : PersistentState) (w₀ : World) (m : Machine) : Prop where
  grown : w₀.db.commits.length ≤ m.world.db.commits.length
  remembered : Remembered state.proposals ⟨w₀, none⟩ m

theorem Machine.Lists.recollects (hl : m.Lists state) : Recollects state m.world m := by
  refine ⟨Nat.le_refl _, fun s hs => ?_, .inl rfl⟩
  unfold Machine.Lists at hl
  rw [hs] at hl
  obtain rfl : state = s.state := hl
  exact .refl

theorem Remembering.recollects {w₀ : World} (h : Remembering state.proposals w₀ s m.world)
    (hs : ∀ s', m.service = some s' → s' = s) : Recollects state w₀ m :=
  ⟨h.grown, fun s' hs' => hs s' hs' ▸ h.running, h.saved⟩

/-- A running daemon begins with what it has. -/
theorem Recollects.running {w₀ : World} (h : Recollects state w₀ m) (hlives : m.service ≠ none)
    (hs : m.Starts s) : Remembering state.proposals w₀ s m.world := by
  obtain ⟨w, service⟩ := m
  cases service with
  | none => exact absurd rfl hlives
  | some running =>
    obtain rfl : s = running := hs
    exact ⟨h.grown, h.remembered.running s rfl, h.remembered.saved⟩

/-- An open begins with what is saved, then or since. -/
theorem Recollects.starts {w₀ : World} {file : StateFile} (h : Recollects state w₀ m)
    (hfile : w₀.stateJson = some file) (hcontent : file.content = some state)
    (hs : m.Starts s) : Remembering state.proposals w₀ s m.world := by
  obtain ⟨w, service⟩ := m
  cases service with
  | some running => exact h.running nofun hs
  | none =>
    obtain ⟨loaded, hfinds, rfl⟩ := hs
    refine ⟨h.grown, ?_, h.remembered.saved⟩
    rcases h.remembered.saved with hsame | ⟨file', state', hfile', hcontent', hr⟩
    · obtain rfl := hfinds.eq_saved (hsame.trans hfile) hcontent
      exact .refl
    · obtain rfl := hfinds.eq_saved hfile' hcontent'
      exact hr

/-- One step, from what it begins with. -/
theorem Recollects.step {command : Command} {w₀ : World} (h : Recollects state w₀ m)
    (hstep : m.step? P command = some (event, m')) (hsees : Sees m command)
    (hstarts : ∀ s, m.Starts s → Remembering state.proposals w₀ s m.world) :
    Recollects state w₀ m' := by
  rcases command.pursues hstep hsees with ⟨fs, rfl⟩ | ⟨_, _, s, s', hs, hd, hs'⟩
  · exact ⟨h.grown, nofun, h.remembered.saved⟩
  · have hkept : Remembering state.proposals w₀ s' m'.world := by
      apply hd.keeps
      · exact fun _ _ _ _ hr hd => hd.remembering hr
      · exact hstarts s hs
    exact hkept.recollects hs'

theorem Recollects.replay {C : Machine → Command → Prop} {commands : List Command} {w₀ : World}
    (h : Recollects state w₀ m) (hreplay : m.replay? P commands = some (events, m'))
    (hC : ∀ m command, C m command → Recollects state w₀ m → Sees m command ∧
      ∀ s, m.Starts s → Remembering state.proposals w₀ s m.world)
    (halong : m.Along P C commands) : Recollects state w₀ m' := by
  induction commands generalizing m events with
  | nil =>
    cases hreplay
    exact h
  | cons command commands ih =>
    obtain ⟨event, m₁, events₁, hstep, hrest, rfl⟩ := replay_cons hreplay
    obtain ⟨hnow, hlater⟩ := halong
    obtain ⟨hsees, hstarts⟩ := hC m command hnow h
    exact ih (h.step hstep hsees hstarts) hrest (hlater event m₁ hstep)

/-- **A run whose opens see what is saved remembers it.** -/
theorem Machine.Secures.remembered {commands : List Command} (h : m.Secures state)
    (hreplay : m.replay? P commands = some (events, m')) (hsees : m.Along P Sees commands) :
    Remembered state.proposals m m' := by
  obtain ⟨⟨file, hfile, hcontent⟩, hrunning⟩ := h
  have hfirst : Recollects state m.world m :=
    ⟨Nat.le_refl _, fun s hs => hrunning s hs ▸ .refl, .inl rfl⟩
  have hlast := hfirst.replay hreplay
    (fun m command hsees h => ⟨hsees, fun s hs => h.starts hfile hcontent hs⟩) hsees
  exact ⟨hlast.remembered.running, hlast.remembered.saved⟩

/-- A daemon that goes on running remembers what it has, saved or not. -/
theorem Machine.Lists.remembered {commands : List Command} (hl : m.Lists state)
    (hreplay : m.replay? P commands = some (events, m')) (hlives : m.Along P Lives commands) :
    Remembered state.proposals m m' := by
  have hlast := hl.recollects.replay hreplay
    (fun m command hlives h => ⟨fun hnone => absurd hnone hlives,
      fun s hs => h.running hlives hs⟩) hlives
  exact ⟨hlast.remembered.running, hlast.remembered.saved⟩

end

/-- `Sees` as a test. -/
def seeing (m : Machine) (command : Command) : Bool :=
  m.service.isSome || !Overlooks m.world command.ticks

theorem Sees.of_test (m : Machine) (command : Command) (h : seeing m command = true) :
    Sees m command := by
  intro hnone
  simpa [seeing, hnone] using h

theorem Lives.of_test (m : Machine) (command : Command) (h : m.service.isSome = true) :
    Lives m command :=
  Option.isSome_iff_ne_none.mp h

end SortingHat
