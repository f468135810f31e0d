import SortingHat.Service.Alone

/-!
# What files add to the queue

Which files a scan proposes is decided by the files, by the queue, and by when each of
them is looked at. On files that do not change it can be counted beforehand.

* `walked`, `filesBefore`: the files a scan comes to;
* `Survey`: what of a service decides on a file;
* `Survey.visit`, `Survey.tour`: what a file adds, and what many do;
* `Survey.fills`: whether the queue is full before the last of them;
* `propose_adds`, `consider_visits`: `consider` is a visit.
-/

namespace SortingHat
open Posix Effect Text
open Journal (Row Database State)

/-! ## The files -/

/-- What `bounded_files` returns where the files do not change. -/
def walked (fs : FileSystem) (root : Bytes) : Nat → List (Bytes × Nat) → List Bytes →
    Except ServiceError (List Bytes)
  | _, [], result => .ok result
  | 0, _ :: _, _ => .error .limit
  | directories + 1, (relative, depth) :: pending, result =>
    if depth > maxWalkDepth then .error .limit
    else match fs.readDir (Path.join root relative) with
      | .error e => .error (.io e)
      | .ok entries =>
        match addEntries relative depth (entries.map fun e => (e.1, fileType (fs.node? e.2)))
            pending result with
        | .error e => .error e
        | .ok (pending, result) => walked fs root directories pending result

def filesBelow (fs : FileSystem) (root : Root) : Except ServiceError (List Bytes) :=
  walked fs (bytes root.path) maxWalkDirectories [([], 0)] []

/-- The files of the roots before the first one that cannot be walked. -/
def filesBefore (fs : FileSystem) : List Root → List (Root × Bytes)
  | [] => []
  | root :: roots =>
    match filesBelow fs root with
    | .error _ => []
    | .ok files => files.map (fun relative => (root, relative)) ++ filesBefore fs roots

/-- What a path without a fault reads as. -/
def identityAt (fs : FileSystem) (path : Bytes) : Option Identity :=
  match fs.stat false path with
  | .ok (i, inode) => some (Identity.of i inode)
  | .error _ => none

/-! ## Surveys -/

/-- The files that await a decision, the files that are known, and the trackers. -/
structure Survey where
  awaiting : List (Uuid × String)
  known : List Identity
  stability : String → StabilityTracker

def Service.survey (s : Service) : Survey where
  awaiting := (s.state.proposals.filter fun p => p.status = .proposed).map fun p =>
    (p.sourceRootId, p.sourceRelative)
  known := s.state.proposals.map proposalIdentity
  stability := s.stability

namespace Survey

/-- The file is not even looked at. -/
def passes (v : Survey) (file : Root × Bytes) : Bool :=
  isPartial file.2 ||
    v.awaiting.any fun a => a.1 = file.1.id && a.2 = encodeRelative file.2

/-- The key of the tracker of a file. -/
def key (file : Root × Bytes) : String := file.1.id.toText ++ ":" ++ encodeRelative file.2

/-- The file reads the same as a second ago. -/
def settled (v : Survey) (file : Root × Bytes) (identity : Identity) (now : Int) : Bool :=
  (v.stability (key file)).previous.any fun (old, since) =>
    old == identity && durationSince now since ≥ 1000000000

/-- The file has been looked at. -/
def looked (v : Survey) (file : Root × Bytes) (identity : Identity) (now : Int) : Survey :=
  { v with stability := Function.update v.stability (key file) ⟨some (identity, now)⟩ }

/-- A file that is looked at is added where it has settled and is not known. -/
def sampled (fs : FileSystem) (v : Survey) (file : Root × Bytes) (now : Int) : Survey :=
  match identityAt fs (Path.join (bytes file.1.path) file.2) with
  | none => v
  | some identity =>
    if v.settled file identity now = false then v.looked file identity now
    else if v.known.any fun old => old == identity then v.looked file identity now
    else
      { v.looked file identity now with
        awaiting := v.awaiting ++ [(file.1.id, encodeRelative file.2)]
        known := v.known ++ [identity] }

section
variable {fs : FileSystem} {v : Survey} {file : Root × Bytes} {identity : Identity} {now : Int}

theorem sampled_settling (h : identityAt fs (Path.join (bytes file.1.path) file.2) = some identity)
    (hsettled : v.settled file identity now = false) :
    v.sampled fs file now = v.looked file identity now := by
  unfold sampled
  rw [h]
  exact if_pos hsettled

theorem sampled_known (h : identityAt fs (Path.join (bytes file.1.path) file.2) = some identity)
    (hknown : (v.known.any fun old => old == identity) = true) :
    v.sampled fs file now = v.looked file identity now := by
  unfold sampled
  rw [h]
  dsimp only
  rw [if_pos hknown, ite_self]

theorem sampled_new (h : identityAt fs (Path.join (bytes file.1.path) file.2) = some identity)
    (hsettled : v.settled file identity now = true)
    (hknown : (v.known.any fun old => old == identity) = false) :
    v.sampled fs file now =
      { v.looked file identity now with
        awaiting := v.awaiting ++ [(file.1.id, encodeRelative file.2)]
        known := v.known ++ [identity] } := by
  unfold sampled
  rw [h]
  dsimp only
  rw [hsettled, hknown]
  rfl

end

/-- What a file adds. The clock is read where the file is looked at. -/
def visit (fs : FileSystem) (v : Survey) (file : Root × Bytes) (readings : List Int) :
    Survey × List Int :=
  if v.passes file then (v, readings)
  else match readings with
    | [] => (v, [])
    | now :: readings => (v.sampled fs file now, readings)

/-- What files add, one after the other. -/
def tour (fs : FileSystem) : Survey → List (Root × Bytes) → List Int → Survey × List Int
  | v, [], readings => (v, readings)
  | v, file :: files, readings =>
    (v.visit fs file readings).1.tour fs files (v.visit fs file readings).2

/-- The queue is full when one of the files comes up. -/
def fills (fs : FileSystem) : Survey → List (Root × Bytes) → List Int → Bool
  | _, [], _ => false
  | v, file :: files, readings =>
    decide (maxProposals ≤ v.awaiting.length) ||
      (v.visit fs file readings).1.fills fs files (v.visit fs file readings).2

end Survey

/-- `taken` has been visited from `v₀`, with the queue not full before any of it. -/
structure Visited (fs : FileSystem) (v₀ : Survey) (taken : List (Root × Bytes))
    (readings : List Int) (v : Survey) : Prop where
  tour : ∀ more, v₀.tour fs taken (readings ++ more) = (v, more)
  fills : ∀ rest more, v₀.fills fs (taken ++ rest) (readings ++ more) = v.fills fs rest more

section
variable {fs : FileSystem} {v₀ v v' : Survey} {taken files : List (Root × Bytes)}
  {file : Root × Bytes} {readings read : List Int}

theorem Survey.tour_append (v : Survey) (files files' : List (Root × Bytes)) (readings : List Int) :
    v.tour fs (files ++ files') readings =
      (v.tour fs files readings).1.tour fs files' (v.tour fs files readings).2 := by
  induction files generalizing v readings with
  | nil => rfl
  | cons file files ih => exact ih _ _

theorem Visited.nil : Visited fs v [] [] v := ⟨fun _ => rfl, fun _ _ => rfl⟩

theorem Visited.snoc (h : Visited fs v₀ taken readings v) (hroom : v.awaiting.length < maxProposals)
    (hvisit : ∀ more, v.visit fs file (read ++ more) = (v', more)) :
    Visited fs v₀ (taken ++ [file]) (readings ++ read) v' := by
  constructor
  · intro more
    rw [List.append_assoc, Survey.tour_append, h.tour]
    exact hvisit more
  · intro rest more
    rw [List.append_assoc, List.append_assoc, h.fills, List.singleton_append, Survey.fills,
      decide_eq_false (Nat.not_le.mpr hroom), Bool.false_or, hvisit]

/-- The clock is read no more than that. -/
theorem Visited.toured (h : Visited fs v₀ taken readings v) :
    v₀.tour fs taken readings = (v, []) := by
  have htour := h.tour []
  rwa [List.append_nil] at htour

/-- The queue is full when the next file comes up. -/
theorem Visited.full (h : Visited fs v₀ taken readings v)
    (hfull : maxProposals ≤ v.awaiting.length) :
    v₀.fills fs (taken ++ file :: files) readings = true := by
  have hfills := h.fills (file :: files) []
  rw [List.append_nil] at hfills
  rw [hfills, Survey.fills, decide_eq_true hfull, Bool.true_or]

/-- No file is left. -/
theorem Visited.unfilled (h : Visited fs v₀ taken readings v) :
    v₀.fills fs taken readings = false := by
  have hfills := h.fills [] []
  rw [List.append_nil, List.append_nil] at hfills
  rw [hfills, Survey.fills]

end

section
variable {A : Tick → Prop} {P : Platform} {s s' : Service} {w w' : World} {root : Root}
  {relative : Bytes} {identity : Identity}

theorem awaiting_length (s : Service) : s.survey.awaiting.length = s.state.proposedCount := by
  unfold Service.survey PersistentState.proposedCount
  rw [List.length_map, List.countP_eq_length_filter]

/-- The check of `consider`, in terms of the survey. -/
theorem passes_eq (s : Service) (root : Root) (relative : Bytes) :
    s.survey.passes (root, relative) = (isPartial relative || s.state.proposals.any fun p =>
      p.sourceRootId = root.id && p.sourceRelative = encodeRelative relative &&
        p.status = .proposed) := by
  unfold Survey.passes Service.survey
  rw [List.any_map, List.any_filter]
  congr 2
  funext p
  exact Bool.and_comm _ _

theorem known_any (s : Service) (identity : Identity) :
    (s.survey.known.any fun old => old == identity) =
      s.state.proposals.any (sameFile identity) := List.any_map

/-! ## The model -/

/-- A scan has added to the queue, and the files are as they were. -/
structure Enqueues (s : Service) (w : World) (s' : Service) (w' : World) : Prop where
  state : ∃ added, s'.state = { s.state with proposals := s.state.proposals ++ added }
  fs : w'.fs = w.fs

theorem Enqueues.of_state (h : s'.state = s.state) (hfs : w'.fs = w.fs) : Enqueues s w s' w' :=
  ⟨⟨[], by rw [h, List.append_nil]⟩, hfs⟩

theorem Enqueues.refl : Enqueues s w s w := .of_state rfl rfl

theorem Enqueues.trans {s'' : Service} {w'' : World} (h : Enqueues s w s' w')
    (h' : Enqueues s' w' s'' w'') : Enqueues s w s'' w'' := by
  obtain ⟨added, hstate⟩ := h.state
  obtain ⟨more, hmore⟩ := h'.state
  refine ⟨⟨added ++ more, ?_⟩, h'.fs.trans h.fs⟩
  rw [hmore, hstate, List.append_assoc]

/-- A file that cannot be proposed: no limit of the service is met, and if it is the
journal's, it is full. -/
structure Rejected (s : Service) (w : World) (e : ServiceError) (s' : Service) (w' : World) :
    Prop where
  state : s'.state = s.state
  fs : w'.fs = w.fs
  limit : e ≠ .limit
  journal : e = .journal .limit → Journal.maxActive ≤ w'.db.activeCount

/-- A proposal of this file. -/
structure ProposalOf (root : Root) (relative : Bytes) (identity : Identity) (p : Proposal) :
    Prop where
  status : p.status = .proposed
  root : p.sourceRootId = root.id
  relative : p.sourceRelative = encodeRelative relative
  identity : proposalIdentity p = identity

theorem propose_adds : wpS Tick.Alone (propose P root relative identity)
    (fun _ s' w' => w'.fs = w.fs ∧ ∃ p, ProposalOf root relative identity p ∧
      s' = { s with state := { s.state with proposals := s.state.proposals ++ [p] } })
    (Rejected s w) (fun _ => True) s w := by
  unfold propose
  refine (wpS_bind _ _).mpr (alone_wp trivial (sniffMime_alone _) (fun mime => ?_)
    fun e => ⟨rfl, rfl, nofun, nofun⟩)
  rw [wpS_bind, wpS_getState, wpS_bind]
  cases hruled : (evaluateRules P.glob s.state.rules
      { factsFor relative root.id true with verifiedMime := mime }).mapError
        fun _ => ServiceError.malformedState with
  | error e =>
    obtain rfl : e = .malformedState := by
      unfold Except.mapError at hruled
      split at hruled <;> cases hruled
      rfl
    exact ⟨rfl, rfl, nofun, nofun⟩
  | ok ruled =>
    refine (wpS_bind _ _).mpr (wpS_mono (decideDestination_alone _ _ _) ?_
      (fun _ _ _ h => h.elim) fun _ _ => trivial)
    rintro decision s' w₁ ⟨rfl, drawn, rfl⟩
    refine (wpS_bind _ _).mpr (wpS_mono (Q := fun _ s'' w' => s'' = s' ∧ w' = { w with drawn })
      (E := fun _ _ _ => False) (K := fun _ => True) ?_ ?_ (fun _ _ _ h => h.elim) fun _ h => h)
    · split
      · exact (wpS_pure _).mpr ⟨rfl, rfl⟩
      · unfold moveWarning?
        exact (wpS_bind _ _).mpr
          (observed_wp trivial ((moveWarning_alone _ _).wp _) fun _ => (wpS_pure _).mpr ⟨rfl, rfl⟩)
    rintro warning s'' w₂ ⟨rfl, rfl⟩
    refine (wpS_bind _ _).mpr (draw_wp trivial ?_)
    refine (wpS_bind _ _).mpr ((wpS_embed _ _).mpr ((wpE_inPart _ _).mpr ?_))
    refine Journal.create_wp trivial (fun e hfull => ?_) fun t db _ _ _ _ _ => ?_
    · exact ⟨rfl, rfl, nofun, fun he => hfull (ServiceError.journal.inj he)⟩
    · rw [wpS_bind, wpS_modifyState, wpS_pure]
      exact ⟨rfl, _, ⟨rfl, rfl, rfl, rfl⟩, rfl⟩

/-- A sample reads the file and then the clock. -/
theorem sample_reads (hA : Quiet A) {fs : FileSystem} {tracker : StabilityTracker} {path : Bytes}
    {settleNs : Int} : wpE A (tracker.sample path settleNs)
      (fun r fs' => fs' = fs ∧ ∃ identity t, A t ∧ identityAt fs path = some identity ∧
        r = (tracker.previous.any (fun (old, since) =>
          old == identity && durationSince t.clockNs since ≥ settleNs),
            ⟨some (identity, t.clockNs)⟩))
      (fun _ fs' => fs' = fs) (fun fs' => fs' = fs) fs := by
  unfold StabilityTracker.sample
  refine (wpE_bind _ _).mpr (identity_wp hA rfl ?_ fun _ _ => rfl)
  intro i inode content hplain
  refine (wpE_bind _ _).mpr ⟨rfl, fun t ht => ?_⟩
  refine ⟨rfl, Identity.of i inode, t, ht, ?_, rfl⟩
  unfold identityAt
  rw [hplain.stat]

/-- What `consider` has done with a file. -/
structure Counted (A : Tick → Prop) (s : Service) (w : World) (file : Root × Bytes)
    (s' : Service) (w' : World) : Prop where
  adds : Enqueues s w s' w'
  visits : ∃ read : List Int, (∀ now ∈ read, ∃ t, A t ∧ now = t.clockNs) ∧
    ∀ more, s.survey.visit w.fs file (read ++ more) = (s'.survey, more)

theorem survey_proposed {p : Proposal} (h : ProposalOf root relative identity p) :
    Service.survey { s with state := { s.state with proposals := s.state.proposals ++ [p] } } =
      { s.survey with
        awaiting := s.survey.awaiting ++ [(root.id, encodeRelative relative)]
        known := s.survey.known ++ [identity] } := by
  have hlast : [p].filter (fun p => p.status = .proposed) = [p] :=
    List.filter_cons_of_pos (decide_eq_true h.status)
  unfold Service.survey
  dsimp only
  rw [List.filter_append, hlast, List.map_append, List.map_append, List.map_singleton,
    List.map_singleton, h.root, h.relative, h.identity]

theorem survey_looked (s : Service) (root : Root) (relative : Bytes) (identity : Identity)
    (now : Int) : Service.survey ⟨s.state, Function.update s.stability
      (root.id.toText ++ ":" ++ encodeRelative relative) ⟨some (identity, now)⟩⟩ =
        s.survey.looked (root, relative) identity now := by
  unfold Survey.looked Survey.key
  dsimp only
  rfl

/-- A file that is passed over. -/
theorem Counted.passed (h : s.survey.passes (root, relative) = true) :
    Counted A s w (root, relative) s w := by
  refine ⟨.refl, [], nofun, fun more => ?_⟩
  unfold Survey.visit
  rw [if_pos h, List.nil_append]

/-- A file that is looked at. -/
theorem Counted.looked {t : Tick} (hpasses : s.survey.passes (root, relative) = false)
    (ht : A t) (hadds : Enqueues s w s' w')
    (h : s.survey.sampled w.fs (root, relative) t.clockNs = s'.survey) :
    Counted A s w (root, relative) s' w' := by
  refine ⟨hadds, [t.clockNs], ?_, fun more => ?_⟩
  · exact List.forall_mem_singleton.mpr ⟨t, ht, rfl⟩
  · unfold Survey.visit
    rw [hpasses, if_neg Bool.false_ne_true]
    exact congrArg (·, more) h

/-- **`consider` is a visit**, or the file cannot be proposed. -/
theorem consider_visits (hA : Quiet A) : wpS A (consider P root relative)
    (fun _ => Counted A s w (root, relative)) (Rejected s w) (fun _ => True) s w := by
  unfold consider
  rw [wpS_bind, wpS_getState]
  dsimp only
  have hpasses := passes_eq s root relative
  split
  · next hunfinished =>
    rw [hunfinished, Bool.true_or] at hpasses
    exact (wpS_pure _).mpr (.passed hpasses)
  next hwhole =>
  split
  · next hawaits =>
    rw [hawaits, Bool.or_true] at hpasses
    exact (wpS_pure _).mpr (.passed hpasses)
  next hnew =>
  rw [Bool.eq_false_iff.mpr hwhole, Bool.eq_false_iff.mpr hnew, Bool.or_false] at hpasses
  refine (wpS_bind _ _).mpr ?_
  unfold sampleStability
  rw [wpS_bind, wpS_get]
  refine (wpS_bind _ _).mpr ((wpS_embed _ _).mpr ((wpE_inPart _ _).mpr
    (wpE_mono (sample_reads hA) ?_ ?_ fun _ _ => trivial)))
  · rintro _ _ ⟨rfl, identity, t, ht, hidentity, rfl⟩
    rw [wpS_bind, wpS_modify, wpS_pure]
    have hidentity : identityAt w.fs (Path.join (bytes root.path) relative) = some identity :=
      hidentity
    split
    · next hsettling =>
      have hsettling : s.survey.settled (root, relative) identity t.clockNs = false := hsettling
      refine (wpS_pure _).mpr (.looked hpasses ht (.of_state rfl rfl) ?_)
      rw [Survey.sampled_settling hidentity hsettling, survey_looked]
    next hsettled =>
    have hsettled : s.survey.settled (root, relative) identity t.clockNs = true :=
      Bool.not_eq_false _ ▸ hsettled
    refine (wpS_bind _ _).mpr ((wpS_embed _ _).mpr ((wpE_inPart _ _).mpr
      (identity_wp hA trivial (fun i inode content hplain => ?_) ?_)))
    · -- it is still the same file
      obtain rfl : Identity.of i inode = identity := by
        have hstat : w.fs.stat false (Path.join (bytes root.path) relative) = .ok (i, inode) :=
          hplain.stat
        unfold identityAt at hidentity
        rw [hstat] at hidentity
        exact Option.some.inj hidentity
      have hknown := known_any s (Identity.of i inode)
      split
      · next hany =>
        refine (wpS_pure _).mpr (.looked hpasses ht (.of_state rfl rfl) ?_)
        rw [Survey.sampled_known hidentity (hknown.trans hany), survey_looked]
      next hany =>
      refine wpS_mono (Prog.wp_weaken propose_adds hA) ?_ ?_ fun _ h => h
      · rintro _ s' w' ⟨hfs, p, hp, rfl⟩
        refine .looked hpasses ht ⟨⟨[p], rfl⟩, hfs⟩ ?_
        rw [Survey.sampled_new hidentity hsettled (hknown.trans (Bool.eq_false_iff.mpr hany)),
          survey_proposed hp, survey_looked]
        rfl
      · exact fun e s' w' h => ⟨h.state, h.fs, h.limit, h.journal⟩
    · exact fun e _ => ⟨rfl, rfl, nofun, nofun⟩
  · rintro e _ rfl
    exact ⟨rfl, rfl, nofun, nofun⟩

end
end SortingHat
