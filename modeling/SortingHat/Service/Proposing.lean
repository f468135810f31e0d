import SortingHat.Service.Exhaustion

/-!
# A new file is proposed

Where no other process is at work and no call fails, two scans a second apart propose the
only file below a watched root.

* `Lone`: the file, and that it is the only one;
* `scanOnce_watches`, `scanOnce_proposes`: the two scans;
* `Run.proposes`, `Run.proposes_series`: together, as the next steps of a run.
-/

namespace SortingHat
open Posix Effect Text
open Journal (Row Database State)

/-- A step in which no other process is at work, no call fails, and the clock reads `now`. -/
def Tick.At (now : Int) (t : Tick) : Prop := t.Sound ∧ t.clockNs = now

theorem Tick.quiet_at (now : Int) : (Tick.quiet now).At now := ⟨⟨rfl, rfl⟩, rfl⟩

/-- The only file below a root: the root lists nothing else, and it can be proposed. -/
structure Lone (fs : FileSystem) (root : Root) (name : Bytes) (i : InodeId) (inode : Inode) :
    Prop where
  listed : fs.readDir (Path.join (bytes root.path) []) = .ok [(name, i)]
  file : fileType (fs.node? i) = .file
  relative : Path.join [] name = name
  found : fs.stat false (Path.join (bytes root.path) name) = .ok (i, inode)
  regular : isRegular inode.node = true
  single : inode.links = 1
  size : inode.node.size ≤ maxFileSize
  whole : isPartial name = false

/-- The proposal that is made where no rule and no agent decides. -/
def undecided (id : Uuid) (root : Root) (name : Bytes) (identity : Identity) : Proposal where
  id
  revision := 1
  sourceRootId := root.id
  sourceRelative := encodeRelative name
  sourceDisplay := displayPath (Path.join (bytes root.path) name)
  destination := none
  destinationName := (Path.fileName name).bind FileName.ofLossy
  destinationDisplay := none
  reason := "No deterministic rule matched"
  provenance := "deterministic_abstain"
  warning := some "No deterministic decision; metadata agent is disabled"
  status := .proposed
  size := identity.size
  device := identity.device
  inode := identity.inode
  modifiedNs := identity.modifiedNs

/-- The sample shows the identity of at least a second ago. -/
def StabilityTracker.settled (tracker : StabilityTracker) (identity : Identity) (now : Int) : Bool :=
  tracker.previous.any fun (old, since) => old == identity && durationSince now since ≥ 1000000000

section
variable {α δ : Type} {P : Platform} {A : Tick → Prop} {s : Service} {w : World} {fs : FileSystem}
  {root : Root} {name : Bytes} {i : InodeId} {inode : Inode} {now : Int}

/-! ## Calls that succeed -/

theorem look_succeeds {f : FileSystem → Except Errno α} {a : α} {Q : α → FileSystem → Prop}
    {E : Errno → FileSystem → Prop} {K : FileSystem → Prop} (hK : K fs) (h : f fs = .ok a)
    (hQ : Q a fs) : wpE (Tick.At now) (look f) Q E K fs := by
  apply look_wp (fun _ ht => ht.1.alone) hK
  · exact fun t e ht hfault => absurd (ht.1.2.symm.trans hfault) nofun
  · intro b hb
    obtain rfl := Except.ok.inj (h.symm.trans hb)
    exact hQ
  · exact fun e he => nomatch h.symm.trans he

theorem Lone.identity (h : Lone fs root name i inode) {Q : Identity → FileSystem → Prop}
    {E : FsError → FileSystem → Prop} {K : FileSystem → Prop} (hK : K fs)
    (hQ : Q (Identity.of i inode) fs) :
    wpE (Tick.At now) (Identity.read (Path.join (bytes root.path) name)) Q E K fs := by
  unfold Identity.read
  rw [wpE_bind]
  apply (wpE_recast _ _).mpr
  apply look_succeeds hK h.found
  rw [wpE_bind, wpE_failIf]
  refine ⟨fun hbad => ?_, fun _ => ?_⟩
  · rcases hbad with hbad | hbad
    · exact absurd (h.regular.symm.trans hbad) (by decide)
    · exact absurd h.single hbad
  rw [wpE_bind, wpE_failIf]
  exact ⟨fun hlarge => absurd h.size (Nat.not_le.mpr hlarge), fun _ => (wpE_pure _).mpr hQ⟩

theorem Lone.sample (h : Lone fs root name i inode) (tracker : StabilityTracker)
    {Q : Bool × StabilityTracker → FileSystem → Prop} {E : FsError → FileSystem → Prop}
    {K : FileSystem → Prop} (hK : K fs)
    (hQ : Q (tracker.settled (Identity.of i inode) now, ⟨some (Identity.of i inode, now)⟩) fs) :
    wpE (Tick.At now) (tracker.sample (Path.join (bytes root.path) name) 1000000000) Q E K fs := by
  unfold StabilityTracker.sample
  rw [wpE_bind]
  apply h.identity hK
  rw [wpE_bind]
  refine ⟨hK, fun t ht => ?_⟩
  rw [← ht.2] at hQ
  exact (wpE_pure _).mpr hQ

/-- The walk finds the file and nothing else. -/
theorem Lone.walk (h : Lone w.fs root name i inode) {Q : List Bytes → Service → World → Prop}
    {E : ServiceError → Service → World → Prop} (hQ : Q [name] s w) :
    wpS (Tick.At now) (boundedFiles (bytes root.path)) Q E (fun _ => True) s w := by
  have hlisted : (do
      let entries ← w.fs.readDir (Path.join (bytes root.path) [])
      return entries.map fun e => (e.1, fileType (w.fs.node? e.2)) : Except Errno _) =
        .ok [(name, .file)] := by
    rw [h.listed]
    exact congrArg (fun kind => Except.ok [(name, kind)]) h.file
  have hadd : addEntries [] 0 [(name, .file)] [] [] = .ok ([], [name]) := by
    unfold addEntries
    rw [h.relative]
    rfl
  unfold boundedFiles
  change wpS _ (walkPending _ (24999 + 1) _ _) _ _ _ _ _
  unfold walkPending
  rw [wpS_bind, wpS_failIf]
  refine ⟨fun hdeep => absurd hdeep (by decide), fun _ => ?_⟩
  rw [wpS_bind]
  refine (wpS_embed _ _).mpr ((wpE_inPart _ _).mpr ?_)
  apply look_succeeds trivial hlisted
  rw [hadd]
  exact hQ

/-! ## One file -/

/-- The row that is created with it. -/
def undecidedRow (id : Uuid) (root : Root) (name : Bytes) (identity : Identity) (updatedAt : Int) :
    Row where
  id
  revision := 1
  state := State.proposed.asStr
  sourceToken := Path.join (bytes root.path) name
  destinationToken := []
  size := identity.size
  sha256 := none
  updatedAt

/-- Nothing decides for the file, and the journal has room for it. -/
structure Undirected (s : Service) (w : World) (P : Platform) : Prop where
  rules : s.state.rules = []
  agent : s.state.agent.enabled = false
  room : w.db.activeCount < Journal.maxActive
  fresh : P.uuid w.drawn ∉ w.db.rows.map Row.id

/-- What a scan has done that proposed the file. -/
structure Made (P : Platform) (root : Root) (name : Bytes) (identity : Identity) (s : Service)
    (w : World) (s' : Service) (w' : World) : Prop where
  state : s'.state = { s.state with
    proposals := s.state.proposals ++ [undecided (P.uuid w.drawn) root name identity] }
  fs : w'.fs = w.fs
  drawn : w'.drawn = w.drawn + 1
  row : ∃ updatedAt,
    w.db.insert (undecidedRow (P.uuid w.drawn) root name identity updatedAt) = .ok w'.db

/-- Nobody is asked while the agent is switched off. -/
theorem decideDestination_disabled {state : PersistentState} (h : state.agent.enabled = false)
    (facts : FileFacts) (size : Nat) (reason : String) :
    decideDestination P state facts size (.abstain reason) =
      pure ⟨none, reason, "deterministic_abstain",
        some "No deterministic decision; metadata agent is disabled"⟩ := by
  unfold decideDestination
  dsimp only
  unfold agentOrFallback
  exact if_pos h

theorem propose_lone (h : Lone w.fs root name i inode) (hu : Undirected s w P) :
    wpS (Tick.At now) (propose P root name (Identity.of i inode))
      (fun fresh s' w' => fresh = true ∧ Made P root name (Identity.of i inode) s w s' w')
      (fun _ _ _ => False) (fun _ => True) s w := by
  have hsize : (Identity.of i inode).size < 2 ^ 63 := Nat.lt_of_le_of_lt h.size (by decide)
  unfold propose
  rw [wpS_bind]
  -- whatever is read of the file, no rule looks at it
  refine (wpS_embed _ _).mpr ((wpE_inPart _ _).mpr (wpE_mono (Q := fun _ fs => fs = w.fs)
    (E := fun _ _ => False) (K := fun _ => True) ?_ ?_ (fun _ _ h => h.elim) fun _ h => h))
  · unfold sniffMime
    rw [wpE_bind, wpE_observe]
    refine Prog.wp_mono (Prog.wp_weaken (InertE.wp ?_ w.fs) fun t ht => ht.1.alone) ?_ fun _ _ => trivial
    · exact inertE_bind (inertE_recast _ (lookWith_alone _)) fun fd =>
        inertE_recast _ (lookWith_alone _)
    · rintro (e | a) fs rfl <;> rfl
  rintro mime fs rfl
  have hruled : evaluateRules P.glob s.state.rules
      { factsFor name root.id true with verifiedMime := mime } =
        .ok (.abstain "No deterministic rule matched") := by
    rw [hu.rules]
    rfl
  rw [wpS_bind, wpS_getState, wpS_bind, hruled]
  change wpS _ (decideDestination P s.state _ _ (.abstain "No deterministic rule matched") >>= _)
    _ _ _ _ _
  rw [wpS_bind, decideDestination_disabled hu.agent, wpS_pure, wpS_bind]
  dsimp only [Option.bind_none, Option.map_none, Option.getD_none]
  rw [wpS_pure, wpS_bind]
  apply draw_wp trivial
  rw [wpS_bind]
  refine (wpS_embed _ _).mpr ((wpE_inPart _ _).mpr (wpE_mono (Journal.create_succeeds
    (fun _ ht => ht.1.2) hu.room rfl rfl hsize hu.fresh (K := fun _ => True) fun _ => trivial)
    ?_ (fun _ _ h => h.elim) fun _ _ => trivial))
  rintro _ db ⟨updatedAt, hinsert⟩
  rw [wpS_bind, wpS_modifyState, wpS_pure]
  exact ⟨rfl, rfl, rfl, rfl, updatedAt, hinsert⟩

/-- The tracker of the file. -/
def trackerKey (root : Root) (name : Bytes) : String := root.id.toText ++ ":" ++ encodeRelative name

/-- The service after a sample of the file. -/
def Service.sampled (s : Service) (root : Root) (name : Bytes) (identity : Identity) (now : Int) :
    Service :=
  { s with stability := Function.update s.stability (trackerKey root name) ⟨some (identity, now)⟩ }

theorem Service.sampled_tracker (s : Service) (root : Root) (name : Bytes) (identity : Identity)
    (now : Int) :
    (s.sampled root name identity now).stability (trackerKey root name) = ⟨some (identity, now)⟩ := by
  unfold Service.sampled
  dsimp only
  rw [Function.update_self]

/-- No proposal for this file awaits review. -/
def Unclaimed (state : PersistentState) (root : Root) (name : Bytes) : Prop :=
  ∀ p ∈ state.proposals, p.sourceRootId = root.id → p.sourceRelative = encodeRelative name →
    p.status ≠ .proposed

/-- A file nobody has claimed is sampled, and where it has settled it is proposed. -/
theorem consider_lone (h : Lone w.fs root name i inode) (hfree : Unclaimed s.state root name)
    {Q : Bool → Service → World → Prop} {E : ServiceError → Service → World → Prop}
    (hwait : (s.stability (trackerKey root name)).settled (Identity.of i inode) now = false →
      Q false (s.sampled root name (Identity.of i inode) now) w)
    (hsettled : (s.stability (trackerKey root name)).settled (Identity.of i inode) now = true →
      s.state.proposals.any (sameFile (Identity.of i inode)) = false ∧
      wpS (Tick.At now) (propose P root name (Identity.of i inode)) Q E (fun _ => True)
        (s.sampled root name (Identity.of i inode) now) w) :
    wpS (Tick.At now) (consider P root name) Q E (fun _ => True) s w := by
  have hclaimed : (s.state.proposals.any fun p =>
      p.sourceRootId = root.id && p.sourceRelative = encodeRelative name && p.status = .proposed) =
        false := by
    simp only [List.any_eq_false, Bool.and_eq_true, decide_eq_true_eq, not_and]
    exact fun p hp hsame hproposed => hfree p hp hsame.1 hsame.2 hproposed
  unfold consider
  rw [wpS_bind, wpS_getState]
  dsimp only
  rw [if_neg (Bool.eq_false_iff.mp h.whole), if_neg (Bool.eq_false_iff.mp hclaimed), wpS_bind]
  unfold sampleStability
  rw [wpS_bind, wpS_get, wpS_bind]
  refine (wpS_embed _ _).mpr ((wpE_inPart _ _).mpr (h.sample _ trivial ?_))
  rw [wpS_bind, wpS_modify, wpS_pure]
  split
  · next hunsettled => exact (wpS_pure _).mpr (hwait hunsettled)
  · next hstable =>
    obtain ⟨hunseen, hpropose⟩ := hsettled (Bool.eq_true_of_not_eq_false hstable)
    rw [wpS_bind]
    refine (wpS_embed _ _).mpr ((wpE_inPart _ _).mpr (h.identity trivial ?_))
    rw [if_neg (Bool.eq_false_iff.mp hunseen)]
    exact hpropose

/-! ## The two scans -/

/-- The service watches this root and nothing else, and the queue has room. -/
structure Watching (state : PersistentState) (root : Root) : Prop where
  running : state.paused = false
  roots : state.roots.filter Root.watched = [root]
  room : state.proposedCount < maxProposals

/-- A scan of one root that holds one file is the sample of that file. -/
theorem scanOnce_lone (h : Lone w.fs root name i inode) (hs : Watching s.state root)
    {Q : Nat → Service → World → Prop} {E : ServiceError → Service → World → Prop}
    (hQ : wpS (Tick.At now) (consider P root name)
      (fun fresh s' w' => (fresh = true → s'.state.bodyLength ≤ maxStateBytes) ∧
        Q (if fresh then 1 else 0) s' (if fresh then
          { w' with stateJson := some ⟨s'.state.bodyLength, some s'.state⟩ } else w')) E
      (fun _ => True) s w) :
    wpS (Tick.At now) (scanOnce P) Q E (fun _ => True) s w := by
  have hroom : ¬ s.state.proposedCount ≥ maxProposals := Nat.not_le.mpr hs.room
  unfold scanOnce
  rw [wpS_bind, wpS_getState, if_neg (Bool.eq_false_iff.mp hs.running), wpS_bind, stopIfFull, wpS_bind,
    wpS_getState, if_neg hroom, wpS_pure, wpS_bind, hs.roots, List.foldlM_cons, wpS_bind, scanRoot,
    wpS_bind]
  apply h.walk
  rw [List.foldlM_cons, wpS_bind, scanFile, wpS_bind, stopIfFull, wpS_bind, wpS_getState,
    if_neg hroom, wpS_pure, wpS_bind]
  refine wpS_mono hQ ?_ (fun _ _ _ h => h) fun _ h => h
  rintro fresh s' w' ⟨hfits, hQ⟩
  rw [wpS_pure, List.foldlM_nil, wpS_pure, List.foldlM_nil, wpS_pure, wpS_bind]
  cases fresh with
  | false => exact (wpS_pure _).mpr ((wpS_pure _).mpr hQ)
  | true =>
    refine Prog.wp_weaken (save_succeeds (hfits rfl) ?_) fun t ht => ht.1
    exact (wpS_pure _).mpr hQ

/-- The first scan takes a sample and does nothing else. -/
theorem scanOnce_watches (h : Lone w.fs root name i inode) (hs : Watching s.state root)
    (hfree : Unclaimed s.state root name)
    (hwait : (s.stability (trackerKey root name)).settled (Identity.of i inode) now = false) :
    wpS (Tick.At now) (scanOnce P)
      (fun _ s' w' => s' = s.sampled root name (Identity.of i inode) now ∧ w' = w)
      (fun _ _ _ => False) (fun _ => True) s w := by
  apply scanOnce_lone h hs
  apply consider_lone h hfree
  · exact fun _ => ⟨nofun, rfl, rfl⟩
  · exact fun hsettled => absurd (hwait.symm.trans hsettled) nofun

/-- The second scan proposes the file. -/
theorem scanOnce_proposes (h : Lone w.fs root name i inode) (hs : Watching s.state root)
    (hu : Undirected s w P) (hfree : Unclaimed s.state root name)
    (hunseen : s.state.proposals.any (sameFile (Identity.of i inode)) = false)
    (hsettled : (s.stability (trackerKey root name)).settled (Identity.of i inode) now = true)
    (hfits : PersistentState.bodyLength { s.state with proposals := s.state.proposals ++
      [undecided (P.uuid w.drawn) root name (Identity.of i inode)] } ≤ maxStateBytes) :
    wpS (Tick.At now) (scanOnce P)
      (fun _ s' w' => Made P root name (Identity.of i inode) s w s' w')
      (fun _ _ _ => False) (fun _ => True) s w := by
  apply scanOnce_lone h hs
  apply consider_lone h hfree
  · exact fun hwait => absurd (hwait.symm.trans hsettled) nofun
  · intro _
    refine ⟨hunseen, wpS_mono (propose_lone h ⟨hu.rules, hu.agent, hu.room, hu.fresh⟩) ?_
      (fun _ _ _ h => h) fun _ h => h⟩
    rintro fresh s' w' ⟨rfl, hmade⟩
    refine ⟨fun _ => hmade.state ▸ hfits, ⟨hmade.state, hmade.fs, hmade.drawn, hmade.row⟩⟩

/-! ## In a run -/

/-- A scan that does not fail is served. -/
theorem exists_scan {Q : Service → World → Prop}
    (h : wpS (Tick.At now) (scanOnce P) (fun _ => Q) (fun _ _ _ => False) (fun _ => True) s w) :
    ∃ s' w', Step P ⟨w, some s⟩ (.answered .scanOnce true) ⟨w', some s'⟩ ∧ Q s' w' := by
  have hperform : wpS (Tick.At now) (Call.scanOnce.perform P) (fun _ => Q) (fun _ _ _ => False)
      (fun _ => True) s w := (wpS_bind _ _).mpr h
  obtain ⟨ticks, ⟨r, s'⟩, w', -, hafter, hQ⟩ := Prog.wp_finish (Tick.quiet_at now) hperform
  cases r with
  | error e => exact hQ.elim
  | ok a => exact ⟨s', w', .served hafter, hQ⟩

/-- At some time the file has not settled. -/
theorem exists_unsettled (tracker : StabilityTracker) (identity : Identity) :
    ∃ now, tracker.settled identity now = false := by
  obtain ⟨previous⟩ := tracker
  cases previous with
  | none => exact ⟨0, rfl⟩
  | some sample =>
    refine ⟨sample.2, ?_⟩
    have hnow : durationSince sample.2 sample.2 = 0 := by
      unfold durationSince
      rw [if_pos (Int.le_refl _), Int.sub_self]
    unfold StabilityTracker.settled
    simp [hnow]

theorem settled_later (identity : Identity) (now : Int) :
    StabilityTracker.settled ⟨some (identity, now)⟩ identity (now + 1000000000) = true := by
  have hlater : durationSince (now + 1000000000) now = 1000000000 := by
    unfold durationSince
    rw [if_pos (by omega)]
    omega
  unfold StabilityTracker.settled
  simp [hlater]

/-- The step of the first scan. -/
theorem exists_sampled (h : Lone w.fs root name i inode) (hs : Watching s.state root)
    (hfree : Unclaimed s.state root name)
    (hwait : (s.stability (trackerKey root name)).settled (Identity.of i inode) now = false) :
    Step P ⟨w, some s⟩ (.answered .scanOnce true)
      ⟨w, some (s.sampled root name (Identity.of i inode) now)⟩ := by
  obtain ⟨s', w', hstep, hstate, hworld⟩ :=
    exists_scan (scanOnce_watches (P := P) h hs hfree hwait)
  rw [hstate, hworld] at hstep
  exact hstep

/-- The step of the second scan. -/
theorem exists_made (now : Int) (h : Lone w.fs root name i inode) (hs : Watching s.state root)
    (hu : Undirected s w P) (hfree : Unclaimed s.state root name)
    (hunseen : s.state.proposals.any (sameFile (Identity.of i inode)) = false)
    (hfits : PersistentState.bodyLength { s.state with proposals := s.state.proposals ++
      [undecided (P.uuid w.drawn) root name (Identity.of i inode)] } ≤ maxStateBytes) :
    ∃ s' w', Step P ⟨w, some (s.sampled root name (Identity.of i inode) now)⟩
      (.answered .scanOnce true) ⟨w', some s'⟩ ∧
        Made P root name (Identity.of i inode) s w s' w' := by
  have hkey := s.sampled_tracker root name (Identity.of i inode) now
  have hsettled := settled_later (Identity.of i inode) now
  rw [← hkey] at hsettled
  obtain ⟨s', w', hstep, hmade⟩ := exists_scan (scanOnce_proposes (P := P)
    (s := s.sampled root name (Identity.of i inode) now) h hs
    ⟨hu.rules, hu.agent, hu.room, hu.fresh⟩ hfree hunseen hsettled hfits)
  exact ⟨s', w', hstep, hmade.state, hmade.fs, hmade.drawn, hmade.row⟩

/-- **A file that is put below the watched root is proposed** by two scans. -/
theorem Run.proposes {m : Machine} {events : List Event} (hrun : Run P m events ⟨w, some s⟩)
    (h : Lone fs root name i inode) (hs : Watching s.state root) (hu : Undirected s w P)
    (hfree : Unclaimed s.state root name)
    (hunseen : s.state.proposals.any (sameFile (Identity.of i inode)) = false)
    (hfits : PersistentState.bodyLength { s.state with proposals := s.state.proposals ++
      [undecided (P.uuid w.drawn) root name (Identity.of i inode)] } ≤ maxStateBytes) :
    ∃ events' s' w', Run P m events' ⟨w', some s'⟩ ∧
      Made P root name (Identity.of i inode) s { w with fs } s' w' := by
  obtain ⟨now, hwait⟩ :=
    exists_unsettled (s.stability (trackerKey root name)) (Identity.of i inode)
  have hfirst := exists_sampled (P := P) (w := { w with fs }) h hs hfree hwait
  obtain ⟨s', w', hsecond, hmade⟩ := exists_made (P := P) (w := { w with fs }) now h hs
    ⟨hu.rules, hu.agent, hu.room, hu.fresh⟩ hfree hunseen hfits
  exact ⟨_, s', w', ((hrun.snoc (.files fs)).snoc hfirst).snoc hsecond, hmade⟩

/-! ## One file after another -/

/-- The next id has no row. -/
theorem Run.fresh {events : List Event} {fs₀ : FileSystem}
    (h : Run P (Machine.initial fs₀) events ⟨w, some s⟩) : P.uuid w.drawn ∉ w.db.rows.map Row.id := by
  obtain ⟨room, -, horderly⟩ := h.orderly
  have horderly : Orderly P [] room s w := horderly
  intro hm
  obtain ⟨row, hrow, hid⟩ := List.mem_map.mp hm
  obtain ⟨k, hk, hknown⟩ :=
    horderly.known row (Journal.Database.mem_history.mp (horderly.coherent.mem_history hrow)).1
  obtain rfl := P.uuid_injective (hknown.symm.trans hid)
  exact Nat.lt_irrefl _ hk

theorem Made.activeCount {identity : Identity} {s' : Service} {w' : World}
    (h : Made P root name identity s w s' w') : w'.db.activeCount = w.db.activeCount + 1 := by
  obtain ⟨updatedAt, hinsert⟩ := h.row
  have hstate : (undecidedRow (P.uuid w.drawn) root name identity updatedAt).state =
      State.proposed.asStr := rfl
  have hactive : (undecidedRow (P.uuid w.drawn) root name identity updatedAt).active = true := by
    rw [Row.active, Journal.Row.terminal_of_state hstate]
    rfl
  unfold Database.activeCount
  rw [(Database.insert_eq_ok hinsert).2.1, List.countP_append, List.countP_singleton, if_pos hactive]

theorem Made.proposedCount {identity : Identity} {s' : Service} {w' : World}
    (h : Made P root name identity s w s' w') :
    s'.state.proposedCount = s.state.proposedCount + 1 := by
  unfold PersistentState.proposedCount
  rw [h.state]
  dsimp only
  rw [List.countP_append, List.countP_singleton]
  rfl

theorem bodyLength_snoc (state : PersistentState) {proposals : List Proposal} (h : proposals ≠ [])
    (p : Proposal) :
    PersistentState.bodyLength { state with proposals := proposals ++ [p] } =
      PersistentState.bodyLength { state with proposals } + 6 +
        Json.byteLength (p.json.pretty 2) := by
  rw [bodyLength_proposals state h, bodyLength_proposals state (List.append_ne_nil_of_left_ne_nil h _),
    List.map_append, List.sum_append, List.map_singleton, List.sum_singleton]
  omega

/-! ## How long a proposal is -/

theorem mem_digits {count n : Nat} {c : Char} (h : c ∈ Uuid.digits count n) : Json.Bare c := by
  have hdigits : ∀ k < 16, Json.Bare (hexDigit k) := by decide
  induction count generalizing n with
  | zero => cases h
  | succ count ih =>
    unfold Uuid.digits at h
    rcases List.mem_append.mp h with h | h
    · exact ih h
    · rw [List.mem_singleton.mp h]
      exact hdigits _ (Nat.mod_lt n (by decide))

theorem length_digits (count n : Nat) : (Uuid.digits count n).length = count := by
  induction count generalizing n with
  | zero => rfl
  | succ count ih => rw [Uuid.digits, List.length_append, ih, List.length_singleton]

/-- An id is 36 characters that need no escape. -/
theorem byteLength_uuid (id : Uuid) (depth : Nat) : Json.byteLength (id.json.pretty depth) = 38 := by
  have hdash : Json.Bare '-' := by decide
  have hbare : ∀ c ∈ id.toText.toList, Json.Bare c := by
    unfold Uuid.toText
    rw [String.toList_ofList]
    intro c hc
    simp only [List.mem_append, List.mem_cons] at hc
    rcases hc with (((hc | rfl | hc) | rfl | hc) | rfl | hc) | rfl | hc
    · exact mem_digits (List.mem_of_mem_take hc)
    · exact hdash
    · exact mem_digits (List.mem_of_mem_drop (List.mem_of_mem_take hc))
    · exact hdash
    · exact mem_digits (List.mem_of_mem_drop (List.mem_of_mem_take hc))
    · exact hdash
    · exact mem_digits (List.mem_of_mem_drop (List.mem_of_mem_take hc))
    · exact hdash
    · exact mem_digits (List.mem_of_mem_drop hc)
  have hlength : id.toText.toList.length = 36 := by
    unfold Uuid.toText
    rw [String.toList_ofList]
    simp [length_digits]
  unfold Uuid.json Json.pretty
  rw [Json.byteLength_quote hbare, hlength]

/-- The keys of a proposal's text. -/
def Proposal.keys : List String :=
  ["id", "revision", "source_root_id", "source_relative", "source_display", "destination",
    "destination_name", "destination_display", "reason", "provenance", "warning", "status", "size",
    "device", "inode", "modified_ns"]

theorem byteLength_keys :
    (Proposal.keys.map fun key => Json.byteLength (Json.quote key)).sum = 186 := by decide +kernel

theorem byteLength_newlines :
    Json.byteLength (Json.newline 2) = 5 ∧ Json.byteLength (Json.newline 3) = 7 := by decide

/-- The values of a proposal's text. -/
def Proposal.values (p : Proposal) : List Json :=
  [p.id.json, .int p.revision, p.sourceRootId.json, .str p.sourceRelative, .str p.sourceDisplay,
    Json.option DestinationChoice.json p.destination,
    Json.option (fun n => .str n.text) p.destinationName, Json.option .str p.destinationDisplay,
    .str p.reason, .str p.provenance, Json.option .str p.warning, .str p.status.text, .int p.size,
    .int p.device, .int p.inode, .int p.modifiedNs]

/-- The keys of a proposal and what stands around them are 352 bytes. -/
theorem byteLength_proposal (p : Proposal) : Json.byteLength (p.json.pretty 2) =
    352 + (p.values.map fun value => Json.byteLength (value.pretty 3)).sum := by
  obtain ⟨hline₂, hline₃⟩ := byteLength_newlines
  have hfields : p.json = .obj (Proposal.keys.zip p.values) := rfl
  have hkeys : (Proposal.keys.zip p.values).map (fun field => Json.byteLength (Json.quote field.1)) =
      Proposal.keys.map fun key => Json.byteLength (Json.quote key) := rfl
  have hvalues : (Proposal.keys.zip p.values).map (fun field => Json.byteLength (field.2.pretty 3)) =
      p.values.map fun value => Json.byteLength (value.pretty 3) := rfl
  have hlength : (Proposal.keys.zip p.values).length = 16 := rfl
  have hsome : Proposal.keys.zip p.values ≠ [] := List.cons_ne_nil _ _
  rw [hfields, Json.byteLength_pretty_obj 2 hsome, hkeys, hvalues, hlength, hline₂,
    hline₃, byteLength_keys]

theorem length_displayPath (path : Bytes) : (displayPath path).toList.length ≤ 4096 := by
  unfold displayPath
  rw [String.toList_ofList]
  exact List.length_take_le _ _

/-- The texts of a proposal nothing decides for. -/
theorem undecided_texts :
    Json.byteLength (Json.quote "No deterministic rule matched") = 31 ∧
    Json.byteLength (Json.quote "deterministic_abstain") = 23 ∧
    Json.byteLength (Json.quote "No deterministic decision; metadata agent is disabled") = 55 ∧
    Json.byteLength (Json.quote Status.proposed.text) = 10 ∧
    Json.byteLength (Json.number 1) = 1 := by decide +kernel

theorem byteLength_null : Json.byteLength ['n', 'u', 'l', 'l'] = 4 := by decide

-- the texts are not computed here
seal Json.byteLength Json.quote Json.number in
/-- How long it is, but for its name and its numbers. -/
theorem byteLength_undecided (id : Uuid) (root : Root) (name : Bytes) (identity : Identity) :
    Json.byteLength ((undecided id root name identity).json.pretty 2) ≤ 50000 +
      Json.byteLength (Json.quote (encodeRelative name)) +
      Json.byteLength ((Json.option (fun n => .str n.text)
        ((Path.fileName name).bind FileName.ofLossy)).pretty 3) +
      Json.byteLength (Json.number identity.size) + Json.byteLength (Json.number identity.device) +
      Json.byteLength (Json.number identity.inode) +
      Json.byteLength (Json.number identity.modifiedNs) := by
  obtain ⟨hreason, hprovenance, hwarning, hstatus, hrevision⟩ := undecided_texts
  have hdisplay := Nat.le_trans (Json.byteLength_quote_le (displayPath (Path.join (bytes root.path) name)))
    (Nat.add_le_add_left (Nat.mul_le_mul_left 12 (length_displayPath _)) 2)
  have hid := byteLength_uuid id 3
  have hroot := byteLength_uuid root.id 3
  have hvalues : (undecided id root name identity).values =
      [id.json, .int 1, root.id.json, .str (encodeRelative name),
        .str (displayPath (Path.join (bytes root.path) name)), .null,
        Json.option (fun n => .str n.text) ((Path.fileName name).bind FileName.ofLossy), .null,
        .str "No deterministic rule matched", .str "deterministic_abstain",
        .str "No deterministic decision; metadata agent is disabled", .str Status.proposed.text,
        .int identity.size, .int identity.device, .int identity.inode, .int identity.modifiedNs] := rfl
  rw [byteLength_proposal, hvalues]
  simp only [List.map_cons, List.map_nil, List.sum_cons, List.sum_nil, hid, hroot]
  simp only [Json.pretty, hreason, hprovenance, hwarning, hstatus, hrevision, byteLength_null]
  omega

/-- Files to be put below the root one after another, each with a name and an identity
of its own. -/
structure Series (root : Root) (fs : Nat → FileSystem) (name : Nat → Bytes)
    (identity : Nat → Identity) (count : Nat) : Prop where
  lone : ∀ k < count, ∃ i inode, Lone (fs k) root (name k) i inode ∧ Identity.of i inode = identity k
  names : ∀ j k, j < k → k < count → encodeRelative (name j) ≠ encodeRelative (name k)
  identities : ∀ j k, j < k → k < count → identity j ≠ identity k

/-- The proposals of the first files of a series. -/
def Drafts (root : Root) (name : Nat → Bytes) (identity : Nat → Identity) (count : Nat)
    (proposals : List Proposal) : Prop :=
  proposals.length = count ∧
    ∀ p ∈ proposals, ∃ k < count, ∃ id, p = undecided id root (name k) (identity k)

/-- **A whole series of files is proposed**, where there is room for it. -/
theorem Run.proposes_series {events : List Event} {fs₀ : FileSystem} {files : Nat → FileSystem}
    {names : Nat → Bytes} {identity : Nat → Identity} {count longest : Nat}
    (hrun : Run P (Machine.initial fs₀) events ⟨w, some s⟩)
    (hseries : Series root files names identity count) (hrunning : s.state.paused = false)
    (hroots : s.state.roots.filter Root.watched = [root]) (hrules : s.state.rules = [])
    (hagent : s.state.agent.enabled = false) (hsome : s.state.proposals ≠ [])
    (hroom : s.state.proposedCount + count ≤ maxProposals)
    (hactive : w.db.activeCount + count ≤ Journal.maxActive)
    (hfree : ∀ k < count, Unclaimed s.state root (names k))
    (hunseen : ∀ k < count, s.state.proposals.any (sameFile (identity k)) = false)
    (hlongest : ∀ k < count, ∀ id,
      Json.byteLength ((undecided id root (names k) (identity k)).json.pretty 2) ≤ longest)
    (hfits : s.state.bodyLength + count * (6 + longest) ≤ maxStateBytes) :
    ∃ events' s' w' added, Run P (Machine.initial fs₀) events' ⟨w', some s'⟩ ∧
      s'.state = { s.state with proposals := s.state.proposals ++ added } ∧
      Drafts root names identity count added := by
  suffices hsome : ∀ n ≤ count, ∃ events' s' w' added,
      Run P (Machine.initial fs₀) events' ⟨w', some s'⟩ ∧
      s'.state = { s.state with proposals := s.state.proposals ++ added } ∧
      Drafts root names identity n added ∧ s'.state.proposedCount = s.state.proposedCount + n ∧
      w'.db.activeCount = w.db.activeCount + n ∧
      s'.state.bodyLength ≤ s.state.bodyLength + n * (6 + longest) by
    obtain ⟨events', s', w', added, hrun', hstate, hadded, -⟩ := hsome count (Nat.le_refl _)
    exact ⟨events', s', w', added, hrun', hstate, hadded⟩
  intro n
  induction n with
  | zero =>
    intro _
    refine ⟨events, s, w, [], hrun, ?_, ⟨rfl, nofun⟩, rfl, rfl, ?_⟩
    · rw [List.append_nil]
    · omega
  | succ n ih =>
    intro hn
    obtain ⟨events₁, s₁, w₁, added, hrun₁, hstate, ⟨hlength, hadded⟩, hcount, hrows, hbody⟩ :=
      ih (Nat.le_of_succ_le hn)
    obtain ⟨i, inode, hlone, hidentity⟩ := hseries.lone n hn
    have hsome₁ : s₁.state.proposals ≠ [] := by
      rw [hstate]
      exact List.append_ne_nil_of_left_ne_nil hsome _
    have hwatching : Watching s₁.state root := by
      refine ⟨?_, ?_, by omega⟩ <;> rw [hstate]
      · exact hrunning
      · exact hroots
    have hundirected : Undirected s₁ w₁ P := by
      refine ⟨?_, ?_, by omega, hrun₁.fresh⟩ <;> rw [hstate]
      · exact hrules
      · exact hagent
    have hfree₁ : Unclaimed s₁.state root (names n) := by
      rw [hstate]
      intro p hp hroot hrelative
      rcases List.mem_append.mp hp with hp | hp
      · exact hfree n hn p hp hroot hrelative
      · obtain ⟨k, hk, id, rfl⟩ := hadded p hp
        exact absurd hrelative (hseries.names k n hk hn)
    have hunseen₁ : s₁.state.proposals.any (sameFile (Identity.of i inode)) = false := by
      rw [hstate, hidentity, List.any_append, hunseen n hn, Bool.false_or, List.any_eq_false]
      intro p hp
      obtain ⟨k, hk, id, rfl⟩ := hadded p hp
      have hother := hseries.identities k n hk hn
      unfold sameFile
      rw [beq_iff_eq]
      exact hother
    have hlong := hlongest n hn (P.uuid w₁.drawn)
    rw [← hidentity] at hlong
    have hsnoc := bodyLength_snoc s₁.state hsome₁
      (undecided (P.uuid w₁.drawn) root (names n) (Identity.of i inode))
    change _ = s₁.state.bodyLength + 6 + _ at hsnoc
    have hmuch : (n + 1) * (6 + longest) ≤ count * (6 + longest) := Nat.mul_le_mul_right _ hn
    rw [Nat.succ_mul] at hmuch ⊢
    have hbody₁ := (Nat.le_of_eq hsnoc).trans
      (show _ ≤ s.state.bodyLength + (n * (6 + longest) + (6 + longest)) by omega)
    obtain ⟨events', s', w', hrun', hmade⟩ := hrun₁.proposes hlone hwatching hundirected hfree₁
      hunseen₁ (hbody₁.trans (by omega))
    have hactive' := hmade.activeCount
    have hproposed' := hmade.proposedCount
    refine ⟨events', s', w', added ++ [undecided (P.uuid w₁.drawn) root (names n) (identity n)], hrun',
      ?_, ⟨?_, ?_⟩, by omega, ?_, ?_⟩
    · rw [hmade.state, hstate, hidentity]
      dsimp only
      rw [List.append_assoc]
    · rw [List.length_append, hlength]
      rfl
    · intro p hp
      rcases List.mem_append.mp hp with hp | hp
      · obtain ⟨k, hk, hid⟩ := hadded p hp
        exact ⟨k, Nat.lt_succ_of_lt hk, hid⟩
      · exact ⟨n, Nat.lt_succ_self n, _, List.mem_singleton.mp hp⟩
    · rw [hactive']
      change w₁.db.activeCount + 1 = _
      omega
    · rw [hmade.state]
      exact hbody₁

end
end SortingHat
