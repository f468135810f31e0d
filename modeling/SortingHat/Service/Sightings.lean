import SortingHat.Effect.Invariant
import SortingHat.Service.Directories
import SortingHat.Service.Opening

/-!
# What scans have seen

A scan may find the files changed by other processes at each of its steps. What holds of
all the file systems it finds, holds of those it has seen its proposals on.

* `KeepsFiles`: a program that only looks keeps what holds of the files;
* `Sighted`, `OnFiles.boundedFiles`: the paths a walk makes of the names it is shown;
* `Seen`, `scanOnce_keeps_seen`: what a scan proposes was there;
* `seen`: so was every proposal of a run.
-/

namespace SortingHat
open Posix Effect Text
open Journal (Row Database State)

/-- What other processes leave satisfies `N`. -/
def Tick.Leaves (N : FileSystem → Prop) (t : Tick) : Prop := ∀ fs, t.others = some fs → N fs

/-- A directory has held the name. -/
def Shown (N : FileSystem → Prop) (name : Bytes) : Prop :=
  ∃ fs path entries, N fs ∧ FileSystem.readDir fs path = .ok entries ∧ ∃ i, (name, i) ∈ entries

/-- A directory a walk comes to. -/
inductive Traversed (N : FileSystem → Prop) : Bytes → Prop where
  | root : Traversed N []
  | child {relative name : Bytes} : Traversed N relative → Shown N name →
      Traversed N (Path.join relative name)

/-- A file a walk finds in such a directory. -/
def Sighted (N : FileSystem → Prop) (path : Bytes) : Prop :=
  ∃ relative name, Traversed N relative ∧ Shown N name ∧ path = Path.join relative name

/-- The file of the proposal has been there. -/
def Seen (N : FileSystem → Prop) (p : Proposal) : Prop :=
  ∃ root relative fs i inode, Sighted N relative ∧ p.sourceRelative = encodeRelative relative ∧
    N fs ∧ FileSystem.stat fs false (Path.join root relative) = .ok (i, inode) ∧
    proposalIdentity p = Identity.of i inode

/-- All proposals have been seen. -/
def AllSeen (N : FileSystem → Prop) (state : PersistentState) : Prop :=
  ∀ p ∈ state.proposals, Seen N p

/-- What a scan keeps. -/
structure Scouted (N : FileSystem → Prop) (s : Service) (w : World) : Prop where
  files : N w.fs
  running : AllSeen N s.state
  saved : ∀ file state, w.stateJson = some file → file.content = some state → AllSeen N state

/-- The program keeps what holds of the files. -/
abbrev KeepsFiles (N : FileSystem → Prop) {ε α : Type} (x : Fallible Tick FileSystem ε α)
    (R : α → Prop) : Prop :=
  KeepsE (Tick.Leaves N) N x R

/-- `I` says of the files that `N` holds. -/
structure OnFiles (N : FileSystem → Prop) (I : Service → World → Prop) : Prop where
  files : ∀ {s w}, I s w → N w.fs
  moved : ∀ {s w}, I s w → ∀ fs, N fs → I s { w with fs }

/-- The request keeps what a scan keeps. -/
abbrev KeepsScan (N : FileSystem → Prop) {α : Type} (x : ServiceM α) (R : α → Prop) : Prop :=
  KeepsS (Tick.Leaves N) (Scouted N) x R

/-! ## Calls -/

section
variable {N : FileSystem → Prop} {P : Platform} {α δ ε : Type} {R : α → Prop} {fs : FileSystem}
  {s : Service} {w : World}

theorem Tick.Leaves.found {t : Tick} (ht : t.Leaves N) (h : N fs) : N (t.found fs) := by
  unfold Tick.found
  cases ho : t.others with
  | none => exact h
  | some other => exact ht other ho

theorem keepsFiles_lookWith {f : Tick → FileSystem → Except Errno α}
    (hR : ∀ t fs a, N fs → f t fs = .ok a → R a) : KeepsFiles N (lookWith f) R := by
  intro fs hfs
  refine ⟨hfs, fun t ht => ?_⟩
  have hfound := ht.found hfs
  dsimp only
  cases t.fault with
  | some e => exact hfound
  | none =>
    dsimp only
    cases hr : f t (t.found fs) with
    | error e => exact hfound
    | ok a => exact ⟨hfound, hR t _ a hfound hr⟩

theorem keepsFiles_look {f : FileSystem → Except Errno α}
    (hR : ∀ fs a, N fs → f fs = .ok a → R a) : KeepsFiles N (look f) R :=
  keepsFiles_lookWith fun _ => hR

theorem keepsFiles_sys {x : IoM α} (h : KeepsFiles N x R) : KeepsFiles N (sys x) R :=
  keepsE_recast _ h

theorem keepsFiles_clock : KeepsFiles N (clock : Fallible Tick FileSystem ε Int) (fun _ => True) :=
  fun _ hfs => ⟨hfs, fun _ _ => ⟨hfs, trivial⟩⟩

/-- The identity that is read is that of a file that was there. -/
theorem keepsFiles_identity (path : Bytes) : KeepsFiles N (Identity.read path) fun identity =>
    ∃ fs i inode, N fs ∧ FileSystem.stat fs false path = .ok (i, inode) ∧
      identity = Identity.of i inode := by
  unfold Identity.read
  refine keepsE_bind (R := fun found => ∃ fs, N fs ∧ FileSystem.stat fs false path = .ok found) ?_ ?_
  · exact keepsFiles_sys (keepsFiles_look fun fs found hfs hstat => ⟨fs, hfs, hstat⟩)
  · rintro ⟨i, inode⟩ ⟨fs, hfs, hstat⟩
    refine keepsE_bind (keepsE_failIf _ _) fun _ _ => ?_
    refine keepsE_bind (keepsE_failIf _ _) fun _ _ => ?_
    exact keepsE_pure ⟨fs, i, inode, hfs, hstat, rfl⟩

theorem keepsFiles_sample (tracker : StabilityTracker) (path : Bytes) (settleNs : Int) :
    KeepsFiles N (tracker.sample path settleNs) (fun _ => True) := by
  unfold StabilityTracker.sample
  refine keepsE_bind (keepsFiles_identity path) fun identity _ => ?_
  refine keepsE_bind keepsFiles_clock fun now _ => ?_
  exact keepsE_pure trivial

theorem keepsFiles_sniffMime (path : Bytes) : KeepsFiles N (sniffMime path) (fun _ => True) := by
  unfold sniffMime
  refine keepsE_bind (keepsE_observe (R := fun _ => True) ?_) fun found _ => keepsE_pure trivial
  refine keepsE_bind (R := fun _ => True) ?_ fun fd _ => ?_
  · exact keepsFiles_sys (keepsFiles_look fun _ _ _ _ => trivial)
  · exact keepsFiles_sys (keepsFiles_lookWith fun _ _ _ _ _ => trivial)

theorem keepsFiles_moveWarning (source destination : Bytes) :
    KeepsFiles N (moveWarning source destination) (fun _ => True) := by
  unfold moveWarning
  refine keepsE_bind (keepsFiles_identity source) fun identity _ => ?_
  refine keepsE_bind (keepsE_orFail _ _) fun parent _ => ?_
  refine keepsE_bind (R := fun _ => True) ?_ fun found _ => keepsE_pure trivial
  exact keepsFiles_sys (keepsFiles_look fun _ _ _ _ => trivial)

theorem keepsFiles_classify (executable : Option String) (request : AgentRequest) :
    KeepsFiles N (classify P executable request) (fun _ => True) := by
  intro fs hfs
  unfold classify
  rw [wpE_bind, wpE_orFail]
  refine ⟨fun _ => hfs, fun _ _ => ?_⟩
  rw [wpE_bind, wpE_failIf]
  refine ⟨fun _ => hfs, fun _ => ?_⟩
  rw [wpE_bind]
  refine ⟨hfs, fun t ht => ?_⟩
  have hfound := ht.found hfs
  dsimp only
  rw [Prog.wp_done]
  cases t.fault with
  | some e => exact hfound
  | none =>
    cases t.child with
    | notStarted => exact hfound
    | timedOut => exact hfound
    | exited success stdout =>
      dsimp only
      cases acceptResponse P request success stdout with
      | error e => exact hfound
      | ok response => exact ⟨hfound, trivial⟩

/-! ## Steps of a request -/

theorem OnFiles.keeps {I : Service → World → Prop} (hI : OnFiles N I) {f : δ → ServiceError}
    {y : Fallible Tick FileSystem δ α} (h : KeepsFiles N y R) :
    KeepsS (Tick.Leaves N) I (embed f (inPart World.files y)) R :=
  keepsS_inPart (fun _ _ => hI.files) (fun _ _ fs hs => hI.moved hs fs) h

theorem scouted_onFiles : OnFiles N (Scouted N) where
  files h := h.files
  moved h _ hfs := ⟨hfs, h.running, h.saved⟩

theorem keepsScan_files {f : δ → ServiceError} {y : Fallible Tick FileSystem δ α}
    (h : KeepsFiles N y R) : KeepsScan N (embed f (inPart World.files y)) R :=
  scouted_onFiles.keeps h

theorem keepsS_check {I : Service → World → Prop} (r : Except ServiceError α) :
    KeepsS (Tick.Leaves N) I (check r) (fun a => r = .ok a) := by
  cases r with
  | error e => exact keepsS_throw e
  | ok a => exact keepsS_pure rfl

theorem keepsScan_getState : KeepsScan N getState (AllSeen N) :=
  fun _ _ h => ⟨h, h.running⟩

theorem keepsScan_draw : KeepsScan N (draw P) (fun _ => True) :=
  fun s _ h => draw_wp ⟨s, h⟩ ⟨⟨h.files, h.running, h.saved⟩, trivial⟩

theorem keepsScan_journal (x : Journal.JournalM α) : KeepsScan N (ofJournal x) (fun _ => True) := by
  intro s w h
  apply wpS_inPart
  · exact fun a db => ⟨⟨h.files, h.running, h.saved⟩, trivial⟩
  · exact fun e db => ⟨h.files, h.running, h.saved⟩
  · exact fun db => ⟨s, h.files, h.running, h.saved⟩

theorem keepsScan_touch : KeepsScan N (ofIo touch) (fun _ => True) :=
  keepsScan_files (keepsFiles_look fun _ _ _ _ => trivial)

theorem keepsScan_install {state : PersistentState} (h : AllSeen N state) :
    KeepsScan N (embed ServiceError.io (inPart World.store (install state))) (fun _ => True) := by
  intro s w hs
  refine (wpS_embed _ _).mpr ((wpE_inPart _ _).mpr ⟨⟨s, hs⟩, fun t _ => ?_⟩)
  dsimp only
  cases t.fault with
  | some e => exact hs
  | none =>
    refine ⟨⟨hs.files, hs.running, fun file saved hfile hcontent => ?_⟩, trivial⟩
    obtain rfl := Option.some.inj hfile
    obtain rfl := Option.some.inj hcontent
    exact h

theorem keepsScan_save : KeepsScan N save (fun _ => True) := by
  unfold save
  refine keepsS_bind keepsScan_getState fun state hstate => ?_
  refine keepsS_then (keepsS_failIf _ _) fun _ => ?_
  refine keepsS_then keepsScan_touch fun _ => ?_
  refine keepsS_then keepsScan_touch fun _ => ?_
  refine keepsS_then keepsScan_touch fun _ => ?_
  refine keepsS_then (keepsScan_install hstate) fun _ => ?_
  refine keepsS_then keepsScan_touch fun _ => ?_
  exact keepsScan_touch

theorem keepsScan_stopIfFull : KeepsScan N stopIfFull (fun _ => True) := by
  unfold stopIfFull
  refine keepsS_then keepsScan_getState fun state => ?_
  split
  · unfold pauseAtLimit
    refine keepsS_then (keepsS_modify fun s w h => ?_) fun _ => ?_
    · exact ⟨h.files, h.running, h.saved⟩
    · exact keepsS_then keepsScan_save fun _ => keepsS_throw _
  · exact keepsS_pure trivial

/-! ## The walk -/

theorem addEntries_sighted {relative : Bytes} {depth : Nat} {entries : List (Bytes × FileType)}
    {pending pending' : List (Bytes × Nat)} {result result' : List Bytes}
    (h : addEntries relative depth entries pending result = .ok (pending', result'))
    (hrelative : Traversed N relative) (hentries : ∀ e ∈ entries, Shown N e.1)
    (hpending : ∀ d ∈ pending, Traversed N d.1) (hresult : ∀ f ∈ result, Sighted N f) :
    (∀ d ∈ pending', Traversed N d.1) ∧ ∀ f ∈ result', Sighted N f := by
  induction entries generalizing pending result with
  | nil =>
    cases h
    exact ⟨hpending, hresult⟩
  | cons entry entries ih =>
    obtain ⟨name, kind⟩ := entry
    obtain ⟨hname, hrest⟩ := List.forall_mem_cons.mp hentries
    cases kind with
    | symlink => exact ih h hrest hpending hresult
    | other => exact ih h hrest hpending hresult
    | directory =>
      have hchild : Traversed N (Path.join relative name) := hrelative.child hname
      exact ih h hrest (List.forall_mem_cons.mpr ⟨hchild, hpending⟩) hresult
    | file =>
      unfold addEntries at h
      dsimp only at h
      split at h
      · cases h
      · apply ih h hrest hpending
        intro f hf
        rcases List.mem_append.mp hf with hf | hf
        · exact hresult f hf
        · rw [List.mem_singleton.mp hf]
          exact ⟨relative, name, hrelative, hname, rfl⟩

theorem keepsFiles_listDirectory (path : Bytes) :
    KeepsFiles N (listDirectory path) (fun entries => ∀ e ∈ entries, Shown N e.1) := by
  refine keepsFiles_look fun fs listed hfs hl => ?_
  cases hread : fs.readDir path with
  | error e =>
    rw [hread] at hl
    cases hl
  | ok entries =>
    rw [hread] at hl
    obtain rfl := Except.ok.inj hl
    intro e he
    obtain ⟨entry, hentry, rfl⟩ := List.mem_map.mp he
    exact ⟨fs, path, entries, hfs, hread, entry.2, hentry⟩

theorem OnFiles.walkPending {I : Service → World → Prop} (hI : OnFiles N I) (root : Bytes)
    (directories : Nat) {pending : List (Bytes × Nat)} {result : List Bytes}
    (hpending : ∀ d ∈ pending, Traversed N d.1) (hresult : ∀ f ∈ result, Sighted N f) :
    KeepsS (Tick.Leaves N) I (walkPending root directories pending result)
      (fun files => ∀ f ∈ files, Sighted N f) := by
  induction directories generalizing pending result with
  | zero =>
    cases pending with
    | nil => exact keepsS_pure hresult
    | cons entry pending => exact keepsS_throw _
  | succ directories ih =>
    cases pending with
    | nil => exact keepsS_pure hresult
    | cons entry pending =>
      obtain ⟨relative, depth⟩ := entry
      obtain ⟨hrelative, hrest⟩ := List.forall_mem_cons.mp hpending
      unfold SortingHat.walkPending
      refine keepsS_then (keepsS_failIf _ _) fun _ => ?_
      refine keepsS_bind (hI.keeps (keepsFiles_listDirectory _)) fun entries hentries => ?_
      refine keepsS_bind (keepsS_check _) fun next hadd => ?_
      obtain ⟨hnext, hfiles⟩ := addEntries_sighted hadd hrelative hentries hrest hresult
      exact ih hnext hfiles

/-- **The walk finds what it was shown.** -/
theorem OnFiles.boundedFiles {I : Service → World → Prop} (hI : OnFiles N I) (root : Bytes) :
    KeepsS (Tick.Leaves N) I (boundedFiles root) (fun files => ∀ f ∈ files, Sighted N f) := by
  apply hI.walkPending
  · exact List.forall_mem_singleton.mpr .root
  · exact nofun

/-! ## The scan -/

-- what is sent to the agent is not computed here
seal classify in
theorem keepsScan_agentOrFallback (state : PersistentState) (facts : FileFacts) (size : Nat)
    (reason provenance : String) :
    KeepsScan N (agentOrFallback P state facts size reason provenance) (fun _ => True) := by
  unfold agentOrFallback
  split
  · exact keepsS_pure trivial
  split
  · exact keepsS_pure trivial
  dsimp only
  split
  · exact keepsS_pure trivial
  refine keepsS_then keepsScan_draw fun id => ?_
  refine keepsS_then (keepsScan_files (keepsE_observe (keepsFiles_classify _ _))) fun answer => ?_
  cases answer with
  | error e => exact keepsS_pure trivial
  | ok response =>
    dsimp only
    split <;> exact keepsS_pure trivial

theorem keepsScan_decideDestination (state : PersistentState) (facts : FileFacts) (size : Nat)
    (ruled : RuleDecision) :
    KeepsScan N (decideDestination P state facts size ruled) (fun _ => True) := by
  cases ruled with
  | destination d ruleIds reason => exact keepsS_pure trivial
  | tie _ _ reason => exact keepsScan_agentOrFallback _ _ _ _ _
  | abstain reason => exact keepsScan_agentOrFallback _ _ _ _ _

theorem keepsScan_propose (root : Root) {relative : Bytes} {i : InodeId} {inode : Inode}
    (hrelative : Sighted N relative) (hfs : N fs)
    (hstat : fs.stat false (Path.join (bytes root.path) relative) = .ok (i, inode)) :
    KeepsScan N (propose P root relative (Identity.of i inode)) (fun _ => True) := by
  unfold propose
  refine keepsS_then (keepsScan_files (keepsFiles_sniffMime _)) fun mime => ?_
  refine keepsS_then keepsScan_getState fun state => ?_
  refine keepsS_then (keepsS_check _) fun ruled => ?_
  refine keepsS_then (keepsScan_decideDestination _ _ _ _) fun decision => ?_
  refine keepsS_then (R := fun _ => True) ?_ fun warning => ?_
  · split
    · exact keepsS_pure trivial
    · unfold moveWarning?
      apply keepsS_then
      · exact keepsScan_files (keepsE_observe (keepsFiles_moveWarning _ _))
      · exact fun _ => keepsS_pure trivial
  refine keepsS_then keepsScan_draw fun id => ?_
  refine keepsS_then (keepsScan_journal _) fun _ => ?_
  refine keepsS_then (keepsS_modify fun s w h => ?_) fun _ => keepsS_pure trivial
  refine ⟨h.files, fun p hp => ?_, h.saved⟩
  rcases List.mem_append.mp hp with hp | hp
  · exact h.running p hp
  · rw [List.mem_singleton.mp hp]
    exact ⟨bytes root.path, relative, fs, i, inode, hrelative, rfl, hfs, hstat, rfl⟩

theorem consider_keeps (root : Root) {relative : Bytes} (hrelative : Sighted N relative) :
    KeepsScan N (consider P root relative) (fun _ => True) := by
  unfold consider
  refine keepsS_then keepsScan_getState fun state => ?_
  dsimp only
  split
  · exact keepsS_pure trivial
  split
  · exact keepsS_pure trivial
  refine keepsS_then (R := fun _ => True) ?_ fun stable => ?_
  · unfold sampleStability
    refine keepsS_then keepsS_get fun service => ?_
    refine keepsS_then (keepsScan_files (keepsFiles_sample _ _ _)) fun sampled => ?_
    refine keepsS_then (keepsS_modify fun s w h => ?_) fun _ => keepsS_pure trivial
    exact ⟨h.files, h.running, h.saved⟩
  split
  · exact keepsS_pure trivial
  refine keepsS_bind (keepsScan_files (keepsFiles_identity _)) fun identity hread => ?_
  split
  · exact keepsS_pure trivial
  · obtain ⟨fs, i, inode, hfs, hstat, rfl⟩ := hread
    exact keepsScan_propose root hrelative hfs hstat

/-- **A scan proposes files it has seen.** -/
theorem scanOnce_keeps_seen : KeepsScan N (scanOnce P) (fun _ => True) := by
  unfold scanOnce
  refine keepsS_then keepsScan_getState fun state => ?_
  split
  · exact keepsS_pure trivial
  refine keepsS_then keepsScan_stopIfFull fun _ => ?_
  refine keepsS_then (keepsS_foldlM (fun created root _ => ?_) _) fun created => ?_
  · unfold scanRoot
    refine keepsS_bind (scouted_onFiles.boundedFiles _) fun files hfiles => ?_
    refine keepsS_foldlM (fun created relative hm => ?_) _
    unfold scanFile
    refine keepsS_then keepsScan_stopIfFull fun _ => ?_
    exact keepsS_then (consider_keeps root (hfiles relative hm)) fun _ => keepsS_pure trivial
  · refine keepsS_then (R := fun _ => True) ?_ fun _ => keepsS_pure trivial
    split
    · exact keepsScan_save
    · exact keepsS_pure trivial

/-! ## Runs -/

/-- `N` holds of the files while the command scans. -/
def Showing (N : FileSystem → Prop) (m : Machine) : Command → Prop
  | .serve .scanOnce ticks => N m.world.fs ∧ ∀ t ∈ ticks, t.Leaves N
  | .cut .scanOnce ticks => N m.world.fs ∧ ∀ t ∈ ticks, t.Leaves N
  | _ => True

/-- Running and saved proposals have been seen. -/
def SeenIn (N : FileSystem → Prop) (s : Service) (w : World) : Prop :=
  AllSeen N s.state ∧
    ∀ file state, w.stateJson = some file → file.content = some state → AllSeen N state

variable {A : Tick → Prop} {caller : Option Call} {lossy : Bool} {s' : Service} {w' : World}
  {m m' : Machine} {event : Event} {events : List Event}

theorem Scouted.seenIn (h : Scouted N s w) : SeenIn N s w := ⟨h.running, h.saved⟩

theorem Seen.same {p q : Proposal} (h : Seen N p) (hsource : q.sourceRelative = p.sourceRelative)
    (hidentity : proposalIdentity q = proposalIdentity p) : Seen N q := by
  unfold Seen
  rw [hsource, hidentity]
  exact h

theorem AllSeen.revised {state : PersistentState} {index : Nat} {f : Proposal → Proposal}
    (h : AllSeen N state) (hf : ∀ p, (f p).sourceRelative = p.sourceRelative ∧
      proposalIdentity (f p) = proposalIdentity p) :
    AllSeen N { state with proposals := state.proposals.modify index f } := by
  intro q hq
  rcases mem_modify hq with ⟨old, ho, rfl⟩ | ⟨i, -, hi⟩
  · obtain ⟨hsource, hidentity⟩ := hf old
    exact (h old (List.mem_of_getElem? ho)).same hsource hidentity
  · exact h q (List.mem_of_getElem? hi)

/-- What is not a scan proposes nothing. -/
theorem AllSeen.deed (h : AllSeen N s.state) (hd : Deed P A caller lossy s w s' w')
    (hscan : caller ≠ some .scanOnce) : AllSeen N s'.state := by
  cases hd with
  | proposed _ _ _ hcaller => exact absurd hcaller hscan
  | redirected | renamed | approved | finished => exact h.revised fun _ => ⟨rfl, rfl⟩
  | settled | warned =>
    unfold PersistentState.settle
    split
    · exact h.revised fun _ => ⟨rfl, rfl⟩
    · exact h
  | pruned => exact fun q hq => h q ((pruned_sublist s.state.proposals).subset hq)
  | _ => exact h

theorem Conduct.seenIn (h : Conduct P A m event m') (hscan : event.call ≠ some .scanOnce)
    (hm : m.Meets A (SeenIn N)) : m'.Meets A (SeenIn N) := by
  apply h.keeps ?_ ?_ hm
  · rintro lossy s w s' w' ⟨hs, hsaved⟩ hd
    refine ⟨hs.deed hd hscan, fun file state hfile hcontent => ?_⟩
    rcases hd.stateJson with hj | hj
    · exact hsaved file state (hj ▸ hfile) hcontent
    · obtain rfl := Option.some.inj (hj.symm.trans hfile)
      obtain rfl := Option.some.inj hcontent
      exact hs
  · rintro s w loaded ⟨-, hsaved⟩ (⟨rfl, -⟩ | ⟨file, hfile, hcontent⟩)
    · exact ⟨nofun, hsaved⟩
    · exact ⟨hsaved file loaded hfile hcontent, hsaved⟩

theorem perform_scan : KeepsScan N (Call.scanOnce.perform P) (fun _ => True) :=
  keepsS_then scanOnce_keeps_seen fun _ => keepsS_pure trivial

/-- **After a command, too, all proposals have been seen.** -/
theorem Command.seenIn {command : Command} (h : m.step? P command = some (event, m'))
    (hC : Showing N m command) (hm : m.Meets (fun _ => True) (SeenIn N)) :
    m'.Meets (fun _ => True) (SeenIn N) := by
  have hother : event.call ≠ some .scanOnce → m'.Meets (fun _ => True) (SeenIn N) :=
    fun hscan => (step_sound h).conduct.seenIn hscan hm
  obtain ⟨w, service⟩ := m
  cases command with
  | serve call ticks =>
    cases service with
    | none => cases h
    | some s =>
      unfold Machine.step? at h
      dsimp only at h
      split at h
      · next r s' w' hafter =>
        obtain ⟨rfl, rfl⟩ := Prod.mk.inj (Option.some.inj h)
        by_cases hcall : call = .scanOnce
        · subst hcall
          have hholds := Prog.wp_after (perform_scan (P := P) s w ⟨hC.1, hm.1, hm.2⟩) ticks hC.2
          rw [hafter] at hholds
          cases r with
          | ok a => exact hholds.1.seenIn
          | error e => exact Scouted.seenIn hholds
        · exact hother fun he => hcall (Option.some.inj he)
      · cases h
  | cut call ticks =>
    cases service with
    | none => cases h
    | some s =>
      obtain ⟨rfl, rfl⟩ := Prod.mk.inj (Option.some.inj h)
      by_cases hcall : call = .scanOnce
      · subst hcall
        have hholds := Prog.wp_after (perform_scan (P := P) s w ⟨hC.1, hm.1, hm.2⟩) ticks hC.2
        have hscouted : ∃ s', Scouted N s' (((Call.scanOnce.perform P).start s).after ticks w).2 := by
          revert hholds
          generalize ((Call.scanOnce.perform P).start s).after ticks w = found
          obtain ⟨rest, w'⟩ := found
          intro hholds
          cases rest with
          | step u n => exact hholds
          | done r =>
            obtain ⟨r, s'⟩ := r
            cases r with
            | ok a => exact ⟨s', hholds.1⟩
            | error e => exact ⟨s', hholds⟩
        obtain ⟨s', hs'⟩ := hscouted
        rintro loaded (⟨rfl, -⟩ | ⟨file, hfile, hcontent⟩)
        · exact ⟨nofun, hs'.saved⟩
        · exact ⟨hs'.saved file loaded hfile hcontent, hs'.saved⟩
      · exact hother fun he => hcall (Option.some.inj he)
  | quit =>
    cases service with
    | none => cases h
    | some s =>
      obtain ⟨rfl, -⟩ := Prod.mk.inj (Option.some.inj h)
      exact hother nofun
  | start ticks =>
    cases service with
    | some s => cases h
    | none =>
      unfold Machine.step? at h
      dsimp only at h
      split at h
      · obtain ⟨rfl, -⟩ := Prod.mk.inj (Option.some.inj h)
        exact hother nofun
      · cases h
      · cases h
  | stop ticks =>
    cases service with
    | some s => cases h
    | none =>
      obtain ⟨rfl, -⟩ := Prod.mk.inj (Option.some.inj h)
      exact hother nofun
  | files change =>
    obtain ⟨rfl, -⟩ := Prod.mk.inj (Option.some.inj h)
    exact hother nofun

theorem replay_seenIn {commands : List Command} (h : m.replay? P commands = some (events, m'))
    (hC : m.Along P (Showing N) commands) (hm : m.Meets (fun _ => True) (SeenIn N)) :
    m'.Meets (fun _ => True) (SeenIn N) := by
  induction commands generalizing m events with
  | nil =>
    cases h
    exact hm
  | cons command commands ih =>
    obtain ⟨event, m₁, events₁, hstep, hrest, rfl⟩ := replay_cons h
    exact ih hrest (hC.2 event m₁ hstep) (Command.seenIn hstep hC.1 hm)

/-- **Every proposal has been seen**, in memory and on disk, on files of which `N` holds
where it holds during every scan. -/
theorem seen {commands : List Command}
    (h : (Machine.initial fs).replay? P commands = some (events, m))
    (hC : (Machine.initial fs).Along P (Showing N) commands) : m.Holds fun _ => AllSeen N := by
  have hmeets : m.Meets (fun _ => True) (SeenIn N) := by
    apply replay_seenIn h hC
    rintro loaded (⟨rfl, -⟩ | ⟨file, hfile, -⟩)
    · exact ⟨nofun, nofun⟩
    · cases hfile
  obtain ⟨w, service⟩ := m
  cases service with
  | some s =>
    have hmeets : SeenIn N s w := hmeets
    exact ⟨fun s' hs => Option.some.inj hs ▸ hmeets.1, hmeets.2⟩
  | none =>
    refine ⟨nofun, fun file state hfile hcontent => ?_⟩
    have hloaded := hmeets state (.inr ⟨file, hfile, hcontent⟩)
    exact hloaded.1

end
end SortingHat
