import SortingHat.Posix.Canonical
import SortingHat.Service.Requests
import SortingHat.Journal.Pruning

/-!
# What the service can do

A `Deed` is everything that one call or assignment of the service can do to its
memory and to what is durable, with all that was checked for it. Whatever a
request or an open does, finished or cut, is a chain of deeds, so what every deed
keeps holds in every run.

* `Deed`, `Deeds`: the deeds, and chains of them;
* `Tracks`: an action all of whose effects are deeds, with its rules.

The `caller` is the request that is served, nothing for an open, and the clock
reads what the ticks in `A` say. A `lossy` chain may hold a journal change whose
answer was lost.
-/

namespace SortingHat
open Posix Effect Text
open Journal (Row Database State)

/-- Where a proposal's destination comes from: a rule, or the agent's choice of a
root. -/
def Chosen (state : PersistentState) (c : DestinationChoice) : Prop :=
  (∃ rule ∈ state.rules, rule.destinationRootId = c.rootId ∧
    rule.destinationDirectory = c.directory) ∨
  c.directory = "." ∧ ∃ root ∈ state.roots, root.destination = true ∧ root.id = c.rootId

/-- A new proposal and the row that is created with it. -/
structure Begins (P : Platform) (s : Service) (w : World) (p : Proposal) (row : Row) : Prop where
  id : p.id = P.uuid w.drawn
  row_id : row.id = p.id
  revision : p.revision = 1
  row_revision : row.revision = 1
  status : p.status = .proposed
  row_state : row.state = State.proposed.asStr
  row_size : row.size = p.size
  source : ∃ root ∈ s.state.roots, root.watched = true ∧ p.sourceRootId = root.id ∧
    ∃ relative, p.sourceRelative = encodeRelative relative ∧ isPartial relative = false ∧
      p.destinationName = (Path.fileName relative).bind FileName.ofLossy ∧
      row.sourceToken = Path.join (bytes root.path) relative ∧
      row.destinationToken =
        (p.destination.bind fun c => s.state.destinationPathFor c relative).getD []
  chosen : ∀ c, p.destination = some c → Chosen s.state c
  unseen : s.state.proposals.any (sameFile (proposalIdentity p)) = false
  single : ∀ q ∈ s.state.proposals, q.sourceRootId = p.sourceRootId →
    q.sourceRelative = p.sourceRelative → q.status ≠ .proposed
  room : s.state.proposedCount < maxProposals
  active : w.db.activeCount < Journal.maxActive

/-- The states an accepted request ends a row in, with the status it reports. -/
def Ends (next : State) (status : Status) : Prop :=
  next = .completed ∧ status = .completed ∨ next = .ignored ∧ status = .ignored ∨
    next = .undone ∧ status = .undone

/-- A proposal that stands at an index, and its row. -/
structure Paired (s : Service) (w : World) (index : Nat) (p : Proposal) (row : Row) : Prop where
  found : s.state.proposals[index]? = some p
  row_mem : row ∈ w.db.rows
  same : row.id = p.id

/-- The service with one proposal changed. -/
def Service.revised (s : Service) (index : Nat) (f : Proposal → Proposal) : Service :=
  { s with state := { s.state with proposals := s.state.proposals.modify index f } }

/-- The caller presents the proposal. -/
def Acts (caller : Option Call) (id : Uuid) : Prop :=
  ∃ call revision, caller = some call ∧ call.presents = some (id, revision)

/-- The callers that apply retention. -/
def Retains : Option Call → Bool
  | none | some (.ignore _ _) | some (.approve _ _) | some (.undo _ _) => true
  | _ => false

/-- The callers that enrol folders. -/
def Enrols : Option Call → Bool
  | some (.addRoot _ _ _) | some (.chooseDestinationPath _ _ _) => true
  | _ => false

/-- A folder that is asked to be enrolled is named from the root. -/
def Absolute : Option Call → Prop
  | some (.addRoot path _ _) => Path.isAbsolute path = true
  | _ => True

/-- A reading of the clock. -/
def Clock (A : Tick → Prop) (now : Int) : Prop := ∃ t, A t ∧ t.seconds = now

/-- One deed. -/
inductive Deed (P : Platform) (A : Tick → Prop) (caller : Option Call) (lossy : Bool) (s : Service)
    (w : World) : Service → World → Prop where
  | files (fs : FileSystem) : Deed P A caller lossy s w s { w with fs }
  | sampled (stability : String → StabilityTracker) :
      Deed P A caller lossy s w { s with stability } w
  | drew : Deed P A caller lossy s w s { w with drawn := w.drawn + 1 }
  | paused (paused : Bool) : Deed P A caller lossy s w { s with state := { s.state with paused } } w
  | advised (agent : AgentSettings) : Deed P A caller lossy s w
      { s with state := { s.state with agent } } w
  | rooted {root : Root} (hid : root.id = P.uuid w.drawn) (hroom : s.state.roots.length < maxRoots)
      (huse : root.watched = true ∨ root.destination = true)
      (hpath : ∀ other ∈ s.state.roots, other.path ≠ root.path) (hcaller : Enrols caller = true)
      (hcanonical : Absolute caller → Path.Canonical (bytes root.path)) :
      Deed P A caller lossy s w
        { s with state := { s.state with roots := s.state.roots ++ [root] } }
        { w with drawn := w.drawn + 1 }
  | unrooted (id : Uuid)
      (hfree : ∀ p ∈ s.state.proposals, p.sourceRootId = id → p.status ≠ .proposed)
      (hcaller : caller = some (.removeRoot id)) :
      Deed P A caller lossy s w
        { s with state := { s.state with
          roots := s.state.roots.filter fun root => root.id ≠ id } } w
  | ruled {rule : Rule} {p : Proposal} {c : DestinationChoice} (hid : rule.id = P.uuid w.drawn)
      (hroom : s.state.rules.length < maxRules) (hp : p ∈ s.state.proposals)
      (hc : p.destination = some c) (hroot : rule.destinationRootId = c.rootId)
      (hdirectory : rule.destinationDirectory = c.directory)
      (hvalid : validateRule P.glob rule = .ok ()) {priority : Int}
      (hcaller : caller = some (.createRuleFromProposal p.id priority)) :
      Deed P A caller lossy s w
        { s with state := { s.state with rules := s.state.rules ++ [rule] } }
        { w with drawn := w.drawn + 1 }
  | proposed {p : Proposal} {row : Row} {db : Database} (hb : Begins P s w p row)
      (hi : w.db.insert row = .ok db) (hnow : Clock A row.updatedAt)
      (hcaller : caller = some .scanOnce) :
      Deed P A caller lossy s w
        { s with state := { s.state with proposals := s.state.proposals ++ [p] } }
        { w with db, drawn := w.drawn + 1 }
  | redirected {index revision : Nat} {p : Proposal} {row : Row} {root : Root} {directory : String}
      {relative name : Bytes} (hp : Paired s w index p row) (hrev : row.revision = p.revision)
      (hnext : revision = p.revision + 1) (hstate : row.state = State.proposed.asStr)
      (hroot : root ∈ s.state.roots)
      (huse : root.destination = true) (hdirectory : validateRelativeDirectory directory = .ok ())
      (hrelative : decodeRelative p.sourceRelative = .ok relative)
      (hname : Path.fileName relative = some name) (hacts : Acts caller row.id) (display : String)
      (warning : Option String) {now : Int}
      (hnow : Clock A now) :
      Deed P A caller lossy s w
        (s.revised index fun p =>
          { p with revision, destination := some ⟨root.id, directory⟩
                   destinationName := (Path.fileName (Path.join (Path.join (bytes root.path)
                     (bytes directory)) name)).bind FileName.ofLossy
                   destinationDisplay := some display, warning })
        { w with db := w.db.replace (row.redirected
          (Path.join (Path.join (bytes root.path) (bytes directory)) name) now) }
  | renamed {index revision : Nat} {p : Proposal} {row : Row} {root : Root} {c : DestinationChoice}
      {name : FileName} (hp : Paired s w index p row) (hrev : row.revision = p.revision)
      (hnext : revision = p.revision + 1) (hstate : row.state = State.proposed.asStr)
      (hc : p.destination = some c) (hroot : root ∈ s.state.roots) (huse : root.destination = true)
      (hid : root.id = c.rootId) {asked : Nat}
      (hcaller : caller = some (.renameProposal row.id asked name.text)) (display : String)
      {now : Int} (hnow : Clock A now) :
      Deed P A caller lossy s w
        (s.revised index fun p =>
          { p with revision, destinationName := some name
                   destinationDisplay := some display })
        { w with db := w.db.replace (row.redirected
          (Path.join (Path.join (bytes root.path) (bytes c.directory)) (bytes name.text)) now) }
  | approved {index revision : Nat} {p : Proposal} {row : Row} (hp : Paired s w index p row)
      (hrev : row.revision = p.revision) (hnext : revision = p.revision + 1)
      (hstate : row.state = State.proposed.asStr) (hacts : Acts caller row.id) {now : Int}
      (hnow : Clock A now) :
      Deed P A caller lossy s w (s.revised index fun p => { p with revision })
        { w with db := w.db.replace (row.moved .approved now) }
  | moved {row : Row} {source next : State} (hm : row ∈ w.db.rows) (hs : row.state = source.asStr)
      (ha : Journal.allowed source next = true) (hi : next.interrupted = true)
      (hn : next ≠ .approved) (hacts : Acts caller row.id) {now : Int}
      (hnow : Clock A now) :
      Deed P A caller lossy s w s { w with db := w.db.replace (row.moved next now) }
  | finished {index revision : Nat} {p : Proposal} {row : Row} {source next : State}
      {status : Status} (hp : Paired s w index p row) (hs : row.state = source.asStr)
      (ha : Journal.allowed source next = true) (hend : Ends next status)
      (hrev : (revision : Int) = row.revision + 1) (hacts : Acts caller row.id) {now : Int}
      (hnow : Clock A now) :
      Deed P A caller lossy s w (s.revised index fun p => { p with revision, status })
        { w with db := w.db.replace (row.moved next now) }
  | settled {row : Row} {source next : State} {status : Status} {revision : Nat}
      (hm : row ∈ w.db.rows) (hs : row.state = source.asStr) (hi : source.interrupted = true)
      (ha : Journal.allowed source next = true)
      (hend : next = .completed ∧ status = .completed ∨
        next = .needsAttention ∧ status = .needsAttention)
      (hrev : (revision : Int) = row.revision + 1) (hcaller : caller = none)
      (warning : Option String → Option String) {now : Int} (hnow : Clock A now) :
      Deed P A caller lossy s w
        { s with state := s.state.settle row.id fun p =>
          { p with revision, status, warning := warning p.warning } }
        { w with db := w.db.replace (row.moved next now) }
  | warned (id : Uuid) (warning : String) (hcaller : caller = none) :
      Deed P A caller lossy s w
        { s with state := s.state.settle id fun p => { p with warning := some warning } } w
  | hashed {row : Row} (hm : row ∈ w.db.rows) (hacts : Acts caller row.id) (digest : String)
      {now : Int} (hnow : Clock A now) :
      Deed P A caller lossy s w s { w with db := w.db.replace (row.hashed digest now) }
  | pruned (hr : Retains caller = true) :
      Deed P A caller lossy s w
        { s with state := { s.state with
          proposals := pruneTerminalProposals s.state.proposals } } w
  | aged (hr : Retains caller = true) {now : Int} (hnow : Clock A now) :
      Deed P A caller lossy s w s { w with db := w.db.aged maxJournalAgeSeconds now }
  | trimmed (hr : Retains caller = true) :
      Deed P A caller lossy s w s { w with db := w.db.trimmed maxTerminalJournal }
  | installed (hfits : s.state.bodyLength ≤ maxStateBytes) :
      Deed P A caller lossy s w s { w with stateJson := some ⟨s.state.bodyLength, some s.state⟩ }
  | lost {row row' : Row} (hl : lossy = true) (hm : row ∈ w.db.rows)
      (hf : Journal.Follows row row') (hcaller : caller = none ∨ Acts caller row.id) :
      Deed P A caller lossy s w s { w with db := w.db.replace row' }

/-- Deeds one after another. -/
inductive Deeds (P : Platform) (A : Tick → Prop) (caller : Option Call) (lossy : Bool)
    (s : Service) (w : World) : Service → World → Prop where
  | refl : Deeds P A caller lossy s w s w
  | snoc {s₁ s₂ : Service} {w₁ w₂ : World} : Deeds P A caller lossy s w s₁ w₁ →
      Deed P A caller lossy s₁ w₁ s₂ w₂ → Deeds P A caller lossy s w s₂ w₂

section
variable {P : Platform} {A : Tick → Prop} {caller : Option Call} {lossy : Bool} {s s₁ s₂ : Service}
  {w w₁ w₂ : World}

/-- Only `lost` asks for loss. -/
theorem Deed.relax (h : Deed P A caller false s w s₁ w₁) : Deed P A caller lossy s w s₁ w₁ := by
  cases h with
  | files fs => exact .files fs
  | sampled stability => exact .sampled stability
  | drew => exact .drew
  | paused paused => exact .paused paused
  | advised agent => exact .advised agent
  | rooted hid hroom huse hpath hcaller hcanonical =>
    exact .rooted hid hroom huse hpath hcaller hcanonical
  | unrooted id hfree hcaller => exact .unrooted id hfree hcaller
  | ruled hid hroom hp hc hroot hdirectory hvalid hcaller =>
    exact .ruled hid hroom hp hc hroot hdirectory hvalid hcaller
  | proposed hb hi hnow hcaller => exact .proposed hb hi hnow hcaller
  | redirected hp hrev hnext hstate hroot huse hdirectory hrelative hname hacts display warning
      hnow =>
    exact .redirected hp hrev hnext hstate hroot huse hdirectory hrelative hname hacts display
      warning hnow
  | renamed hp hrev hnext hstate hc hroot huse hid hcaller display hnow =>
    exact .renamed hp hrev hnext hstate hc hroot huse hid hcaller display hnow
  | approved hp hrev hnext hstate hacts hnow => exact .approved hp hrev hnext hstate hacts hnow
  | moved hm hs ha hi hn hacts hnow => exact .moved hm hs ha hi hn hacts hnow
  | finished hp hs ha hend hrev hacts hnow => exact .finished hp hs ha hend hrev hacts hnow
  | settled hm hs hi ha hend hrev hcaller warning hnow =>
    exact .settled hm hs hi ha hend hrev hcaller warning hnow
  | warned id warning hcaller => exact .warned id warning hcaller
  | hashed hm hacts digest hnow => exact .hashed hm hacts digest hnow
  | pruned hr => exact .pruned hr
  | aged hr hnow => exact .aged hr hnow
  | trimmed hr => exact .trimmed hr
  | installed hfits => exact .installed hfits
  | lost hl => cases hl

theorem Deeds.relax (h : Deeds P A caller false s w s₁ w₁) : Deeds P A caller lossy s w s₁ w₁ := by
  induction h with
  | refl => exact .refl
  | snoc _ hdeed ih => exact ih.snoc hdeed.relax

theorem Deeds.trans (h : Deeds P A caller lossy s w s₁ w₁)
    (h' : Deeds P A caller lossy s₁ w₁ s₂ w₂) :
    Deeds P A caller lossy s w s₂ w₂ := by
  induction h' with
  | refl => exact h
  | snoc _ hdeed ih => exact ih.snoc hdeed

/-- What every deed keeps, every chain keeps. -/
theorem Deeds.keeps {I : Service → World → Prop}
    (hI : ∀ s w s' w', I s w → Deed P A caller lossy s w s' w' → I s' w')
    (h : Deeds P A caller lossy s w s₁ w₁)
    (hs : I s w) : I s₁ w₁ := by
  induction h with
  | refl => exact hs
  | snoc _ hdeed ih => exact hI _ _ _ _ ih hdeed

end

/-! ## Actions -/

/-- All that `x` does from `(s, w)` on goes on a chain of deeds from `(s₀, w₀)`, and
what it returns satisfies `Q`. An action that succeeds has lost no answer. -/
structure Tracks (P : Platform) (A : Tick → Prop) (caller : Option Call) (s₀ : Service)
    (w₀ : World) {α : Type} (x : ServiceM α) (Q : α → Service → World → Prop) (s : Service)
    (w : World) : Prop where
  wp : wpS A x (fun a s' w' => Deeds P A caller false s₀ w₀ s' w' ∧ Q a s' w')
    (fun _ s' w' => Deeds P A caller true s₀ w₀ s' w')
      (fun w' => ∃ s', Deeds P A caller true s₀ w₀ s' w') s w

section
variable {P : Platform} {A : Tick → Prop} {caller : Option Call} {α β : Type} {s₀ s : Service}
  {w₀ w : World} {x : ServiceM α}
  {Q : α → Service → World → Prop}

theorem Tracks.mono {Q' : α → Service → World → Prop} (h : Tracks P A caller s₀ w₀ x Q s w)
    (hQ : ∀ a s' w', Deeds P A caller false s₀ w₀ s' w' → Q a s' w' → Q' a s' w') :
    Tracks P A caller s₀ w₀ x Q' s w :=
  ⟨wpS_mono h.wp (fun a s' w' ha => ⟨ha.1, hQ a s' w' ha.1 ha.2⟩) (fun _ _ _ h => h)
    fun _ h => h⟩

theorem tracks_bind {f : α → ServiceM β} {Q : β → Service → World → Prop}
    (h : Tracks P A caller s₀ w₀ x (fun a s' w' => Deeds P A caller false s₀ w₀ s' w' →
      Tracks P A caller s₀ w₀ (f a) Q s' w') s w) : Tracks P A caller s₀ w₀ (x >>= f) Q s w :=
  ⟨(wpS_bind _ _).mpr
    (wpS_mono h.wp (fun _ _ _ ha => (ha.2 ha.1).wp) (fun _ _ _ h => h) fun _ h => h)⟩

theorem tracks_pure {a : α} (h : Deeds P A caller false s₀ w₀ s w) (hQ : Q a s w) :
    Tracks P A caller s₀ w₀ (pure a) Q s w := ⟨⟨h, hQ⟩⟩

theorem tracks_throw {e : ServiceError} (h : Deeds P A caller false s₀ w₀ s w) :
    Tracks P A caller s₀ w₀ (throw e) Q s w := ⟨h.relax⟩

theorem tracks_get {Q : PersistentState → Service → World → Prop}
    (h : Deeds P A caller false s₀ w₀ s w) (hQ : Q s.state s w) :
    Tracks P A caller s₀ w₀ getState Q s w := ⟨⟨h, hQ⟩⟩

theorem tracks_orFail {o : Option α} {e : ServiceError} (h : Deeds P A caller false s₀ w₀ s w)
    (hQ : ∀ a, o = some a → Q a s w) : Tracks P A caller s₀ w₀ (orFail o e) Q s w :=
  ⟨(wpS_orFail o e).mpr ⟨fun _ => h.relax, fun a ha => ⟨h, hQ a ha⟩⟩⟩

theorem tracks_failIf {c : Prop} [Decidable c] {e : ServiceError}
    {Q : Unit → Service → World → Prop} (h : Deeds P A caller false s₀ w₀ s w)
    (hQ : ¬ c → Q () s w) :
    Tracks P A caller s₀ w₀ (failIf c e) Q s w :=
  ⟨(wpS_failIf c e).mpr ⟨fun _ => h.relax, fun hc => ⟨h, hQ hc⟩⟩⟩

theorem tracks_check {r : Except ServiceError α} (h : Deeds P A caller false s₀ w₀ s w)
    (hQ : ∀ a, r = .ok a → Q a s w) : Tracks P A caller s₀ w₀ (check r) Q s w := by
  cases r with
  | error e => exact ⟨h.relax⟩
  | ok a => exact ⟨⟨h, hQ a rfl⟩⟩

/-- Whatever is done to the files is a deed. -/
theorem tracks_files {δ : Type} {f : δ → ServiceError} {x : Fallible Tick FileSystem δ α}
    (h : Deeds P A caller false s₀ w₀ s w) (hQ : ∀ a fs, Q a s { w with fs }) :
    Tracks P A caller s₀ w₀ (embed f (inPart World.files x)) Q s w := by
  refine ⟨wpS_inPart (fun a fs => ⟨h.snoc (.files fs), hQ a fs⟩) (fun _ fs => ?_) fun fs => ?_⟩
  · exact h.relax.snoc (.files fs)
  · exact ⟨s, h.relax.snoc (.files fs)⟩

/-- The same, with what the call is known to return. -/
theorem tracks_files_wp {δ : Type} {f : δ → ServiceError} {x : Fallible Tick FileSystem δ α}
    {R : α → FileSystem → Prop} (h : Deeds P A caller false s₀ w₀ s w)
    (hx : wpE A x R (fun _ _ => True) (fun _ => True) w.fs)
    (hQ : ∀ a fs, R a fs → Q a s { w with fs }) :
    Tracks P A caller s₀ w₀ (embed f (inPart World.files x)) Q s w := by
  refine ⟨(wpS_embed _ _).mpr ((wpE_inPart _ _).mpr (wpE_mono hx ?_ ?_ ?_))⟩
  · exact fun a fs ha => ⟨h.snoc (.files fs), hQ a fs ha⟩
  · exact fun _ fs _ => h.relax.snoc (.files fs)
  · exact fun fs _ => ⟨s, h.relax.snoc (.files fs)⟩

/-- A call that looks returns what it has found somewhere. -/
theorem tracks_look {f : Errno → ServiceError} {g : FileSystem → Except Errno α}
    (h : Deeds P A caller false s₀ w₀ s w)
    (hQ : ∀ a fs fs', g fs' = .ok a → Q a s { w with fs }) :
    Tracks P A caller s₀ w₀ (embed f (inPart World.files (look g))) Q s w := by
  have hlook : wpE A (look g) (fun a _ => ∃ fs', g fs' = .ok a) (fun _ _ => True) (fun _ => True)
      w.fs := by
    refine ⟨trivial, fun t _ => ?_⟩
    dsimp only
    cases t.fault with
    | some e => exact trivial
    | none =>
      dsimp only
      cases hg : g (t.found w.fs) with
      | error e => exact trivial
      | ok a => exact ⟨_, hg⟩
  exact tracks_files_wp h hlook fun a fs ⟨fs', ha⟩ => hQ a fs fs' ha

theorem tracks_modifyState {f : PersistentState → PersistentState}
    {Q : Unit → Service → World → Prop} (h : Deeds P A caller false s₀ w₀ s w)
    (hd : Deed P A caller false s w { s with state := f s.state } w)
    (hQ : Q () { s with state := f s.state } w) : Tracks P A caller s₀ w₀ (modifyState f) Q s w :=
  ⟨⟨h.snoc hd, hQ⟩⟩

/-- The running state is what `state.json` holds. -/
def Installed (s : Service) (w : World) : Prop :=
  w.stateJson = some ⟨s.state.bodyLength, some s.state⟩ ∧ s.state.bodyLength ≤ maxStateBytes

theorem tracks_save {Q : Unit → Service → World → Prop} (h : Deeds P A caller false s₀ w₀ s w)
    (hQ : ∀ w', Installed s w' → w'.db = w.db → w'.drawn = w.drawn → Q () s w') :
    Tracks P A caller s₀ w₀ save Q s w := by
  unfold save
  apply tracks_bind (tracks_get h _)
  intro h
  apply tracks_bind (tracks_failIf h _)
  intro hfits h
  have hfits := Nat.not_lt.mp hfits
  apply tracks_bind (tracks_files h _)
  intro _ fs₁ h
  apply tracks_bind (tracks_files h _)
  intro _ fs₂ h
  apply tracks_bind (tracks_files h _)
  intro _ fs₃ h
  have hinstall : Tracks P A caller s₀ w₀
      (embed ServiceError.io (inPart World.store (install s.state)))
      (fun _ s' w' => s' = s ∧ Installed s w' ∧ w'.db = w.db ∧ w'.drawn = w.drawn) s
      { w with fs := fs₃ } := by
    refine ⟨(wpS_embed _ _).mpr ((wpE_inPart _ _).mpr ⟨⟨s, h.relax⟩, fun t _ => ?_⟩)⟩
    dsimp only [install]
    cases t.fault with
    | some e => exact h.relax
    | none => exact ⟨h.snoc (.installed hfits), rfl, ⟨rfl, hfits⟩, rfl, rfl⟩
  apply tracks_bind (hinstall.mono _)
  rintro _ s' w' - ⟨rfl, hi, hdb, hdrawn⟩ h
  apply tracks_bind (tracks_files h _)
  intro _ fs₄ h
  apply tracks_files h
  intro _ fs₅
  exact hQ _ hi hdb hdrawn

/-! ## The journal -/

/-- A row that a call presenting this id and revision can move. -/
structure Presented (w : World) (id : Uuid) (revision : Nat) (row : Row) : Prop where
  row_mem : row ∈ w.db.rows
  same : row.id = id
  current : row.revision = (revision : Int)

/-- A transition, and what the caller makes of it. Until the caller has noted it,
the change alone is a lost answer. -/
theorem tracks_transition {id : Uuid} {revision : Nat} {next : State}
    {f : Journal.Entry → ServiceM β} {Q : β → Service → World → Prop}
    (hcaller : caller = none ∨ Acts caller id) (h : Deeds P A caller false s₀ w₀ s w)
    (hf : ∀ row source entry now, Presented w id revision row → row.state = source.asStr →
      Journal.allowed source next = true → entry.revision = revision + 1 → Clock A now →
      Tracks P A caller s₀ w₀ (f entry) Q s { w with db := w.db.replace (row.moved next now) }) :
    Tracks P A caller s₀ w₀ (ofJournal (Journal.transition id revision next) >>= f) Q s w := by
  refine ⟨(wpS_bind _ _).mpr ((wpS_embed _ _).mpr ((wpE_inPart _ _).mpr ?_))⟩
  refine Journal.transition_wp ⟨s, h.relax⟩
    (fun _ => h.relax) fun row source t ht hfind hrev hs ha => ?_
  obtain ⟨hm, hid⟩ := Database.find_eq_some.mp hfind
  have hlost : Deeds P A caller true s₀ w₀ s
      { w with db := w.db.replace (row.moved next t.seconds) } :=
    h.relax.snoc (.lost rfl hm (.moved t.seconds hs ha) (hid.symm ▸ hcaller))
  refine ⟨⟨s, hlost⟩, fun _ => hlost, fun entry hr => ?_⟩
  have hnext : entry.revision = revision + 1 := by
    have : (entry.revision : Int) = row.revision + 1 := hr.revision
    omega
  exact (hf row source entry t.seconds ⟨hm, hid, hrev⟩ hs ha hnext
    ⟨t, ht, rfl⟩).wp

theorem tracks_reviseProposal {id : Uuid} {revision : Nat} {token : Bytes}
    {f : Journal.Entry → ServiceM β} {Q : β → Service → World → Prop}
    (hcaller : caller = none ∨ Acts caller id) (h : Deeds P A caller false s₀ w₀ s w)
    (hf : ∀ row entry now, Presented w id revision row → row.state = State.proposed.asStr →
      entry.revision = revision + 1 → Clock A now →
      Tracks P A caller s₀ w₀ (f entry) Q s
        { w with db := w.db.replace (row.redirected token now) }) :
    Tracks P A caller s₀ w₀ (ofJournal (Journal.reviseProposal id revision token) >>= f) Q s w := by
  refine ⟨(wpS_bind _ _).mpr ((wpS_embed _ _).mpr ((wpE_inPart _ _).mpr ?_))⟩
  refine Journal.reviseProposal_wp ⟨s, h.relax⟩ (fun _ => h.relax) fun row t ht hfind hrev hs => ?_
  obtain ⟨hm, hid⟩ := Database.find_eq_some.mp hfind
  have hlost : Deeds P A caller true s₀ w₀ s
      { w with db := w.db.replace (row.redirected token t.seconds) } :=
    h.relax.snoc (.lost rfl hm (.redirected token t.seconds hs) (hid.symm ▸ hcaller))
  refine ⟨⟨s, hlost⟩, fun _ => hlost, fun entry hr => ?_⟩
  have hnext : entry.revision = revision + 1 := by
    have : (entry.revision : Int) = row.revision + 1 := hr.revision
    omega
  exact (hf row entry t.seconds ⟨hm, hid, hrev⟩ hs hnext ⟨t, ht, rfl⟩).wp

/-- An assignment that completes the deed of a journal change. -/
theorem tracks_note {index : Nat} {g : Proposal → Proposal} {f : Unit → ServiceM β}
    {Q : β → Service → World → Prop} (h : Deeds P A caller false s₀ w₀ (s.revised index g) w)
    (hf : Deeds P A caller false s₀ w₀ (s.revised index g) w →
      Tracks P A caller s₀ w₀ (f ()) Q (s.revised index g) w) :
    Tracks P A caller s₀ w₀ (modifyProposal index g >>= f) Q s w :=
  ⟨(wpS_bind _ _).mpr (wpS_modifyState.mpr (hf h).wp)⟩

theorem tracks_setSha256 {id : Uuid} {digest : String} {Q : Unit → Service → World → Prop}
    (hacts : Acts caller id) (h : Deeds P A caller false s₀ w₀ s w)
    (hQ : ∀ row now, row ∈ w.db.rows → row.id = id →
      Q () s { w with db := w.db.replace (row.hashed digest now) }) :
    Tracks P A caller s₀ w₀ (ofJournal (Journal.setSha256 id digest)) Q s w := by
  refine ⟨(wpS_embed _ _).mpr ((wpE_inPart _ _).mpr ?_)⟩
  refine Journal.setSha256_wp ⟨s, h.relax⟩ (fun _ => h.relax) fun row t ht hfind => ?_
  obtain ⟨hm, hid⟩ := Database.find_eq_some.mp hfind
  exact ⟨h.snoc (.hashed hm (hid.symm ▸ hacts) digest ⟨t, ht, rfl⟩), hQ row t.seconds hm hid⟩

/-- Retention, its two deletions one after the other. -/
theorem tracks_retention {Q : Unit → Service → World → Prop} (hretains : Retains caller = true)
    (h : Deeds P A caller false s₀ w₀ s w)
    (hQ : ∀ now, Clock A now → Q () s { w with
      db := (w.db.aged maxJournalAgeSeconds now).trimmed maxTerminalJournal }) :
    Tracks P A caller s₀ w₀ enforceJournalRetention Q s w := by
  unfold enforceJournalRetention
  refine tracks_bind (Tracks.mono (Q := fun _ => Q ()) ?_ fun n s' w' h hq h' => tracks_pure h' hq)
  refine ⟨(wpS_embed _ _).mpr ((wpE_inPart _ _).mpr ?_)⟩
  unfold Journal.enforceRetention
  refine (wpE_bind _ _).mpr ((wpE_orFail _ _).mpr ⟨fun _ => h.relax, fun age hage => ?_⟩)
  obtain rfl := Journal.i64_eq_some hage
  refine (wpE_bind _ _).mpr (Journal.execute_wp ⟨s, h.relax⟩ (fun _ => h.relax)
    fun t aged db₁ ht hx => ?_)
  obtain ⟨-, rfl⟩ := Prod.mk.inj (Except.ok.inj hx)
  have h₁ := h.snoc (.aged hretains ⟨t, ht, rfl⟩)
  unfold Journal.pruneTerminal
  refine (wpE_bind _ _).mpr ((wpE_bind _ _).mpr
    ((wpE_orFail _ _).mpr ⟨fun _ => h₁.relax, fun retain hretain => ?_⟩))
  obtain rfl := Journal.i64_eq_some hretain
  refine Journal.execute_wp ⟨s, h₁.relax⟩ (fun _ => h₁.relax) fun _ pruned db₂ _ hx => ?_
  obtain ⟨-, rfl⟩ := Prod.mk.inj (Except.ok.inj hx)
  have h₂ := h₁.snoc (.trimmed hretains)
  have hK : ∃ s', Deeds P A caller true s₀ w₀ s' _ := ⟨s, h₂.relax⟩
  refine (wpE_bind _ _).mpr ((Journal.query_reads _).wpE hK (fun _ => h₂.relax) fun _ _ => ?_)
  refine (wpE_bind _ _).mpr (Journal.fileLength_reads.wpE hK (fun _ => h₂.relax) fun main _ => ?_)
  refine (wpE_bind _ _).mpr (Journal.fileLength_reads.wpE hK (fun _ => h₂.relax) fun wal _ => ?_)
  refine (wpE_bind _ _).mpr ((wpE_orFail _ _).mpr ⟨fun _ => h₂.relax, fun _ _ => ?_⟩)
  refine (wpE_bind _ _).mpr (Journal.fileLength_reads.wpE hK (fun _ => h₂.relax) fun shm _ => ?_)
  refine (wpE_bind _ _).mpr ((wpE_orFail _ _).mpr ⟨fun _ => h₂.relax, fun _ _ => ?_⟩)
  refine (wpE_bind _ _).mpr ((wpE_failIf _ _).mpr ⟨fun _ => h₂.relax, fun _ => ?_⟩)
  exact ⟨h₂, hQ t.seconds ⟨t, ht, rfl⟩⟩

end
end SortingHat
