import SortingHat.Service.References
import SortingHat.Service.Choice
import SortingHat.Service.Custody

/-!
# The name a file is moved to

A destination is kept twice: in bytes with the journal entry, and with the proposal as a
root, a directory and a text. An approval moves the file to the second.

* `Titled`: what the two have to do with each other;
* `Addressed`, `addressed`: they do so in every run, in memory and on disk;
* `approve_poised`: what an approval has read before it creates an entry;
* `moved_as_journalled`: the entry it creates is the journal's exactly where the name is text.
-/

namespace SortingHat
open Posix Effect Text FileSystem
open Journal (Row Database State)

/-! ## One destination in two places -/

/-- The name that stands with the entry, for a source of this name: its own, shown with
what is not text replaced, or one that was asked for. -/
inductive Styled (renamed : Uuid → Prop) (p : Proposal) (name : Bytes) : Bytes → Prop where
  | kept (h : p.destinationName = FileName.ofLossy name) : Styled renamed p name name
  | given {file : FileName} (h : p.destinationName = some file) (hr : renamed p.id) :
    Styled renamed p name (bytes file.text)

/-- The entry names the folder that the proposal has chosen, and a name for it. -/
def Titled (renamed : Uuid → Prop) (roots : List Root) (p : Proposal) (row : Row) : Prop :=
  ∀ c root relative name, p.destination = some c → root ∈ roots → root.destination = true →
    root.id = c.rootId → p.sourceRelative = encodeRelative relative →
    Path.fileName relative = some name →
    ∃ written, Styled renamed p name written ∧
      row.destinationToken = Path.join (Path.join (bytes root.path) (bytes c.directory)) written

/-- A proposal whose row, while it waits at the proposal's revision, names its destination. -/
structure Placed (P : Platform) (renamed : Uuid → Prop) (n : Nat) (db : Database)
    (roots : List Root) (p : Proposal) : Prop where
  choice : ∀ c, p.destination = some c → ∃ k < n, c.rootId = P.uuid k
  behind : ∀ row ∈ db.rows, row.id = p.id → (p.revision : Int) ≤ row.revision
  titled : ∀ row ∈ db.rows, row.id = p.id → row.revision = (p.revision : Int) →
    row.state = State.proposed.asStr → Titled renamed roots p row

/-- Every proposal is placed, when `n` ids are drawn. -/
structure Addressed (P : Platform) (renamed : Uuid → Prop) (n : Nat) (db : Database)
    (state : PersistentState) : Prop extends Linked P n db state where
  rules : ∀ rule ∈ state.rules, ∃ k < n, rule.destinationRootId = P.uuid k
  placed : ∀ p ∈ state.proposals, Placed P renamed n db state.roots p

section
variable {P : Platform} {A : Tick → Prop} {caller : Option Call} {lossy : Bool} {s s' : Service}
  {w w' : World} {n : Nat} {db : Database} {state : PersistentState} {fs : FileSystem} {m : Machine}
  {events : List Event} {renamed : Uuid → Prop} {roots : List Root} {p q : Proposal} {row : Row}

theorem Addressed.initial : Addressed P renamed n db .initial where
  toLinked := .initial
  rules _ hm := by cases hm
  placed _ hm := by cases hm

/-- Only what a proposal is called and where it goes is said of it. -/
theorem Titled.shown (h : Titled renamed roots p row) (hid : q.id = p.id)
    (hchoice : q.destination = p.destination) (hsource : q.sourceRelative = p.sourceRelative)
    (hname : q.destinationName = p.destinationName) : Titled renamed roots q row := by
  intro c root relative name hc hroot hdestination hrootid hrelative hfile
  obtain ⟨written, hstyled, htoken⟩ := h c root relative name (hchoice.symm.trans hc) hroot hdestination
    hrootid (hsource.symm.trans hrelative) hfile
  refine ⟨written, ?_, htoken⟩
  cases hstyled with
  | kept hshown => exact .kept (hname.trans hshown)
  | given hshown hr => exact .given (hname.trans hshown) (hid ▸ hr)

/-! ## The table goes on -/

/-- What has been drawn stays drawn. -/
theorem drawn_mono {n' : Nat} (hle : n ≤ n') {id : Uuid} (h : ∃ k < n, id = P.uuid k) :
    ∃ k < n', id = P.uuid k := by
  obtain ⟨k, hk, hid⟩ := h
  exact ⟨k, Nat.lt_of_lt_of_le hk hle, hid⟩

/-- A row that has gone on to the next revision is nobody's any more. -/
theorem Placed.world (h : Placed P renamed w.drawn w.db roots p) (hid : ∃ k < w.drawn, p.id = P.uuid k)
    (hd : Deed P A caller lossy s w s' w') : Placed P renamed w'.drawn w'.db roots p := by
  have hfresh : ∀ row' ∈ w'.db.rows, row'.id = p.id → row'.id ≠ P.uuid w.drawn := by
    intro row' _ hrow' he
    obtain ⟨k, hk, hpid⟩ := hid
    have := P.uuid_injective (hpid.symm.trans (hrow'.symm.trans he))
    exact absurd hk (this ▸ Nat.lt_irrefl _)
  constructor
  · exact fun c hc => drawn_mono hd.edit.drawn_le (h.choice c hc)
  · intro row' hm hrow'
    rcases hd.rows hm with ⟨row, hrow, rfl | hf⟩ | hnew
    · exact h.behind row' hrow hrow'
    · have hle := h.behind row hrow (hf.id.symm.trans hrow')
      rcases Journal.Follows.disciplined _ _ hf with ⟨hsame, -⟩ | hnext <;> omega
    · exact absurd hnew (hfresh row' hm hrow')
  · intro row' hm hrow' hrevision hstate
    rcases hd.rows hm with ⟨row, hrow, rfl | hf⟩ | hnew
    · exact h.titled row' hrow hrow' hrevision hstate
    · have hrow := And.intro hrow (hf.id.symm.trans hrow')
      rcases Journal.Follows.disciplined _ _ hf with ⟨hsame, hkept⟩ | hnext
      · obtain ⟨hkeptState, hkeptToken⟩ := Prod.mk.inj hkept
        intro c root relative name hc hroot hdestination hrootid hrelative hname
        rw [hkeptToken]
        exact h.titled row hrow.1 hrow.2 (hsame ▸ hrevision) (hkeptState ▸ hstate) c root relative
          name hc hroot hdestination hrootid hrelative hname
      · have hle := h.behind row hrow.1 hrow.2
        omega
    · exact absurd hnew (hfresh row' hm hrow')

theorem Addressed.world (h : Addressed P renamed w.drawn w.db state)
    (hd : Deed P A caller lossy s w s' w') : Addressed P renamed w'.drawn w'.db state where
  toLinked := h.toLinked.world hd
  rules rule hm := drawn_mono hd.edit.drawn_le (h.rules rule hm)
  placed p hp := (h.placed p hp).world (h.ids p hp) hd

/-! ## The proposals change -/

/-- Other roots say as much, where they say anything. -/
theorem Placed.among {roots' : List Root} (h : Placed P renamed n db roots p)
    (hroots : ∀ c, p.destination = some c → ∀ root ∈ roots', root.id = c.rootId → root ∈ roots) :
    Placed P renamed n db roots' p where
  choice := h.choice
  behind := h.behind
  titled row hm hid hrevision hstate c root relative name hc hroot hdestination hrootid :=
    h.titled row hm hid hrevision hstate c root relative name hc (hroots c hc root hroot hrootid)
      hdestination hrootid

/-- The row that has been written over. -/
theorem eq_of_replace {next row' : Row} (hm : row' ∈ (db.replace next).rows) (he : row'.id = next.id) :
    row' = next := by
  obtain ⟨old, hold, rfl⟩ := Database.mem_replace.mp hm
  by_cases hsame : old.id = next.id
  · rw [if_pos hsame]
  · rw [if_neg hsame] at he
    exact absurd he hsame

/-- A proposal of a state in which one is settled. -/
theorem mem_settle {id : Uuid} {f : Proposal → Proposal} (h : q ∈ (state.settle id f).proposals) :
    (∃ p ∈ state.proposals, p.id = id ∧ q = f p) ∨ q ∈ state.proposals := by
  unfold PersistentState.settle at h
  split at h
  · next index hindex =>
    rcases mem_modify h with ⟨old, ho, rfl⟩ | ⟨i, -, hi⟩
    · obtain ⟨hlt, hid, -⟩ := List.findIdx?_eq_some_iff_getElem.mp hindex
      rw [List.getElem?_eq_getElem hlt, Option.some.injEq] at ho
      exact .inl ⟨old, ho ▸ List.getElem_mem hlt, ho ▸ of_decide_eq_true hid, rfl⟩
    · exact .inr (List.mem_of_getElem? hi)
  · exact .inr h

/-- A proposal that is no longer waiting. -/
theorem Placed.decided {next : Row} (hchoice : ∀ c, p.destination = some c → ∃ k < n, c.rootId = P.uuid k)
    (hrow : ∀ row ∈ db.rows, row.id = p.id → row = next) (hrevision : (p.revision : Int) ≤ next.revision)
    (hstate : next.state ≠ State.proposed.asStr) : Placed P renamed n db roots p where
  choice := hchoice
  behind row hm hid := hrow row hm hid ▸ hrevision
  titled row hm hid _ hproposed := absurd (hrow row hm hid ▸ hproposed) hstate

/-- A proposal that waits with its row, and names what the row names. -/
theorem Placed.titles {next : Row} (hchoice : ∀ c, p.destination = some c → ∃ k < n, c.rootId = P.uuid k)
    (hrow : ∀ row ∈ db.rows, row.id = p.id → row = next) (hrevision : (p.revision : Int) ≤ next.revision)
    (htitled : Titled renamed roots p next) : Placed P renamed n db roots p where
  choice := hchoice
  behind row hm hid := hrow row hm hid ▸ hrevision
  titled row hm hid _ _ := hrow row hm hid ▸ htitled

theorem Addressed.proposals {proposals : List Proposal} (h : Addressed P renamed n db state)
    (hl : Linked P n db { state with proposals })
    (hp : ∀ q ∈ proposals, q ∈ state.proposals ∨ Placed P renamed n db state.roots q) :
    Addressed P renamed n db { state with proposals } where
  toLinked := hl
  rules := h.rules
  placed q hq := (hp q hq).elim (h.placed q) id

/-- One proposal goes on with its row. -/
theorem Addressed.revise {index : Nat} {next : Row} {f : Proposal → Proposal}
    (h : Addressed P renamed n (w.db.replace next) s.state)
    (hl : Linked P n (w.db.replace next) (s.revised index f).state) (hp : Paired s w index p row)
    (hid : next.id = row.id)
    (hplaced : (∀ row' ∈ (w.db.replace next).rows, row'.id = p.id → row' = next) →
      Placed P renamed n (w.db.replace next) s.state.roots (f p)) :
    Addressed P renamed n (w.db.replace next) (s.revised index f).state := by
  refine h.proposals hl fun q hq => ?_
  rcases mem_modify hq with ⟨old, ho, rfl⟩ | ⟨i, -, hi⟩
  · obtain rfl := Option.some.inj (hp.found.symm.trans ho)
    exact .inr (hplaced fun row' hm he => eq_of_replace hm (he.trans (hp.same.symm.trans hid.symm)))
  · exact .inl (List.mem_of_getElem? hi)

theorem Addressed.settle {id : Uuid} {f : Proposal → Proposal} (h : Addressed P renamed n db state)
    (hl : Linked P n db (state.settle id f))
    (hp : ∀ p ∈ state.proposals, p.id = id → Placed P renamed n db state.roots (f p)) :
    Addressed P renamed n db (state.settle id f) := by
  have hframe : (state.settle id f).roots = state.roots ∧ (state.settle id f).rules = state.rules := by
    unfold PersistentState.settle
    split
    · exact ⟨rfl, rfl⟩
    · exact ⟨rfl, rfl⟩
  refine ⟨hl, hframe.2 ▸ h.rules, fun q hq => ?_⟩
  rw [hframe.1]
  rcases mem_settle hq with ⟨old, ho, hid, rfl⟩ | hq
  · exact hp old ho hid
  · exact h.placed q hq

theorem Addressed.rooted {root : Root} (h : Addressed P renamed n db state) (hid : root.id = P.uuid n) :
    Addressed P renamed (n + 1) db { state with roots := state.roots ++ [root] } where
  toLinked := h.toLinked.rooted hid
  rules rule hm := drawn_mono (Nat.le_succ n) (h.rules rule hm)
  placed p hp := by
    have hplaced : Placed P renamed (n + 1) db state.roots p :=
      { h.placed p hp with choice := fun c hc => drawn_mono (Nat.le_succ n) ((h.placed p hp).choice c hc) }
    apply hplaced.among
    intro c hc other ho hother
    rcases List.mem_append.mp ho with ho | ho
    · exact ho
    · obtain ⟨k, hk, hk'⟩ := (h.placed p hp).choice c hc
      rw [List.mem_singleton.mp ho, hid, hk'] at hother
      exact absurd hk (P.uuid_injective hother ▸ Nat.lt_irrefl _)

theorem Addressed.unrooted (h : Addressed P renamed n db state) (id : Uuid) :
    Addressed P renamed n db
      { state with roots := state.roots.filter fun root => root.id ≠ id } where
  toLinked := h.toLinked.unrooted id
  rules := h.rules
  placed p hp := (h.placed p hp).among fun _ _ _ hm _ => List.mem_of_mem_filter hm

/-- A name that a directory can hold ends the path it is joined to. -/
theorem fileName_join {folder name path : Bytes} (h : Path.fileName path = some name) :
    Path.fileName (Path.join folder name) = some name := by
  obtain ⟨-, hup, hslash, hstay⟩ := plain_of_fileName h
  obtain ⟨habs, hnames⟩ := names_of_plain hslash hstay
  exact Path.fileName_of_names (by rw [Path.names_join habs, hnames]) hup

/-- **A new proposal and its row** name one destination. -/
theorem Begins.placed (h : Addressed P renamed w.drawn w.db s.state) (hb : Begins P s w p row)
    (hi : w.db.insert row = .ok db) : Placed P renamed (w.drawn + 1) db s.state.roots p := by
  obtain ⟨hfresh, hrows, -⟩ := Database.insert_eq_ok hi
  obtain ⟨-, -, -, -, relative, hrelative, -, hshown, -, htoken⟩ := hb.source
  have hrow : ∀ row' ∈ db.rows, row'.id = p.id → row' = row := by
    intro row' hm hid
    rw [hrows] at hm
    rcases List.mem_append.mp hm with hm | hm
    · refine absurd ?_ hfresh
      rw [hb.row_id, ← hid]
      exact List.mem_map_of_mem hm
    · exact List.mem_singleton.mp hm
  refine Placed.titles ?_ hrow ?_ ?_
  · intro c hc
    apply drawn_mono (Nat.le_succ w.drawn)
    rcases hb.chosen c hc with ⟨rule, hrule, hroot, -⟩ | ⟨-, root, hroot, -, hid⟩
    · exact hroot ▸ h.rules rule hrule
    · exact hid ▸ h.roots root hroot
  · rw [hb.revision, hb.row_revision]
    exact Int.le_refl _
  · intro c root relative' name hc hroot hdestination hid hrelative' hname
    obtain rfl := encodeRelative_injective (hrelative.symm.trans hrelative')
    refine ⟨name, .kept (by rw [hshown, hname]; rfl), ?_⟩
    have hfound : s.state.findRoot c.rootId Root.destination = some root :=
      hid ▸ findRoot_of_mem h.distinct hroot hdestination
    rw [htoken, hc]
    unfold PersistentState.destinationPathFor
    simp [hfound, hname]

/-- **A deed keeps entry and proposal together.** -/
theorem Addressed.deed (h : Addressed P renamed w.drawn w.db s.state)
    (hd : Deed P A caller lossy s w s' w')
    (hrenamed : ∀ id revision name, caller = some (.renameProposal id revision name) → renamed id) :
    Addressed P renamed w'.drawn w'.db s'.state := by
  have hworld := h.world hd
  have hlinked := h.toLinked.deed hd
  have hold : ∀ {index : Nat} {p : Proposal}, s.state.proposals[index]? = some p →
      Placed P renamed w.drawn w.db s.state.roots p := fun hp => h.placed _ (List.mem_of_getElem? hp)
  have hdecided : ∀ next : State, next ≠ .proposed → next.asStr ≠ State.proposed.asStr :=
    fun next hne he => hne (State.asStr_injective he)
  cases hd with
  | files | sampled | drew | paused | advised | moved | hashed | aged | trimmed | installed | lost =>
    exact ⟨hlinked, hworld.rules, hworld.placed⟩
  | rooted hid => exact h.rooted hid
  | unrooted id => exact hworld.unrooted id
  | @ruled rule p c hid hroom hp hc hroot =>
    refine ⟨hlinked, fun other hm => ?_, hworld.placed⟩
    rcases List.mem_append.mp hm with hm | hm
    · exact hworld.rules other hm
    · rw [List.mem_singleton.mp hm, hroot]
      exact (hworld.placed p hp).choice c hc
  | @proposed p row db hb hi =>
    refine hworld.proposals hlinked fun q hq => ?_
    rcases List.mem_append.mp hq with hq | hq
    · exact .inl hq
    · rw [List.mem_singleton.mp hq]
      exact .inr (hb.placed h hi)
  | @redirected index revision p row root directory relative name hp hrev hnext hstate hroot huse
      hdirectory hrelative hname =>
    refine hworld.revise hlinked hp rfl fun hrow => Placed.titles ?_ hrow ?_ ?_
    · rintro c ⟨⟩
      exact h.roots root hroot
    · change ((revision : Nat) : Int) ≤ row.revision + 1
      omega
    · rintro c root' relative' name' ⟨⟩ hroot' - hid hrelative' hname'
      obtain rfl := List.inj_on_of_nodup_map h.distinct hroot' hroot hid
      obtain rfl := encodeRelative_injective ((decoded hrelative).1.trans hrelative')
      obtain rfl := Option.some.inj (hname.symm.trans hname')
      refine ⟨name, .kept ?_, rfl⟩
      change (Path.fileName _).bind FileName.ofLossy = _
      rw [fileName_join hname]
      rfl
  | @renamed index revision p row root c name hp hrev hnext hstate hc hroot huse hid asked hcaller =>
    refine hworld.revise hlinked hp rfl fun hrow => Placed.titles ?_ hrow ?_ ?_
    · exact fun c' hc' => (hold hp.found).choice c' hc'
    · change ((revision : Nat) : Int) ≤ row.revision + 1
      omega
    · intro c' root' relative' name' hc' hroot' _ hid' _ _
      obtain rfl := Option.some.inj (hc.symm.trans hc')
      obtain rfl := List.inj_on_of_nodup_map h.distinct hroot' hroot (hid'.trans hid.symm)
      exact ⟨bytes name.text, .given rfl (hp.same ▸ hrenamed _ _ _ hcaller), rfl⟩
  | @approved index revision p row hp hrev hnext hstate =>
    refine hworld.revise hlinked hp rfl fun hrow => Placed.decided (hold hp.found).choice hrow ?_ ?_
    · change ((revision : Nat) : Int) ≤ row.revision + 1
      omega
    · exact hdecided .approved nofun
  | @finished index revision p row source next status hp hs ha hend hrev =>
    refine hworld.revise hlinked hp rfl fun hrow => Placed.decided (hold hp.found).choice hrow ?_ ?_
    · exact Int.le_of_eq hrev
    · rcases hend with ⟨rfl, -⟩ | ⟨rfl, -⟩ | ⟨rfl, -⟩
      · exact hdecided .completed nofun
      · exact hdecided .ignored nofun
      · exact hdecided .undone nofun
  | @settled row source next status revision hm hs hi ha hend hrev =>
    refine hworld.settle hlinked fun old ho hid => ?_
    apply Placed.decided
    · exact (h.placed old ho).choice
    · intro row' hm' hid'
      exact eq_of_replace hm' (hid'.trans hid)
    · exact Int.le_of_eq hrev
    · rcases hend with ⟨rfl, -⟩ | ⟨rfl, -⟩
      · exact hdecided .completed nofun
      · exact hdecided .needsAttention nofun
  | warned id warning =>
    refine hworld.settle hlinked fun old ho _ => ?_
    have hplaced := hworld.placed old ho
    refine ⟨hplaced.choice, hplaced.behind, fun row hm hid hrevision hstate => ?_⟩
    exact (hplaced.titled row hm hid hrevision hstate).shown rfl rfl rfl rfl
  | pruned => exact hworld.proposals hlinked fun q hq => .inl ((pruned_sublist s.state.proposals).subset hq)

/-- The request asks for a name. -/
def Call.renames (id : Uuid) : Call → Bool
  | .renameProposal asked _ _ => asked = id
  | _ => false

def Event.renames (event : Event) (id : Uuid) : Bool := event.call.any fun call => call.renames id

/-- **Entry and proposal name one destination**, in every run, in memory and on disk. -/
theorem addressed (h : Run P (Machine.initial fs) events m) :
    m.Holds fun n => Addressed P (fun id => ∃ event ∈ events, event.renames id = true) n m.world.db := by
  apply h.agrees
  · exact fun _ _ => .initial
  · exact fun _ _ _ _ _ _ _ hs hd => hs.world hd
  · intro event hevent lossy s w s' w' hs hd
    refine hs.deed hd fun id revision name hcall => ⟨event, hevent, ?_⟩
    unfold Event.renames
    rw [hcall]
    exact decide_eq_true rfl

/-! ## Approving -/

/-- What an approval has read when it commits its intent: its row waits at the revision that
is presented, and everything is open. -/
structure Poised (P : Platform) (s : Service) (w : World) (id : Uuid) (revision : Nat) (o : Opened)
    (row : Row) : Prop where
  aim : Aimed s id revision o
  ready : ∃ verifiedFd, Readied P s w.fs o verifiedFd
  found : w.db.find id = some row
  current : row.revision = (revision : Int)
  waits : row.state = State.proposed.asStr

/-- An approval that has done anything to the files has committed its intent. -/
theorem approve_poised {id : Uuid} {revision : Nat} (hA : Quiet A) :
    wpS A (approve P id revision) (fun _ _ _ => ∃ o row, Poised P s w id revision o row)
      (fun _ _ w' => w'.fs = w.fs ∨ ∃ o row, Poised P s w id revision o row)
      (fun w' => w'.fs = w.fs ∨ ∃ o row, Poised P s w id revision o row) s w := by
  unfold approve
  refine (wpS_bind _ _).mpr (wpS_mono ((approveChecks_looks id revision).wp fun _ => rfl) ?_ ?_ ?_)
  · rintro ⟨o, verifiedFd⟩ s' w' ⟨rfl, hu, haim, hready⟩
    have hsame := hu.fs hA
    dsimp only
    rw [approveMove_eq]
    refine (wpS_bind _ _).mpr ((wpS_embed _ _).mpr ((wpE_inPart _ _).mpr ?_))
    refine Journal.transition_wp (.inl hsame) (fun _ => .inl hsame) ?_
    intro row source t _ hfind hrevision hsource ha
    obtain rfl := proposed_of_allowed ha
    have hintended : ∃ o row, Poised P s' w id revision o row :=
      ⟨o, row, haim, ⟨verifiedFd, hready hA⟩, hu.db ▸ hfind, hrevision, hsource⟩
    refine ⟨.inr hintended, fun _ => .inr hintended, fun entry _ => ?_⟩
    refine Prog.wp_trivial ?_ fun _ => .inr hintended
    rintro ⟨e | a, s₁⟩ w₁
    · exact .inr hintended
    · exact hintended
  · exact fun _ _ _ h => .inl (h.2.fs hA)
  · exact fun _ hu => .inl (hu.fs hA)

/-- An entry that was free holds a file, which is no copy in the making. -/
structure Publishes (fs fs' : FileSystem) (id : Uuid) (slot : Slot) : Prop where
  free : fs.linkAt? slot = none
  entry : ∃ i, fs'.linkAt? slot = some i ∧ (slot.name = stagingName id → fs.inodes i ≠ none)

/-- **A move makes no other entry than its target.** -/
theorem Charted.publishes {c : Course} {id id₀ : Uuid} {revision : Nat} {expected : Identity}
    {sha256 : Option String} {state : State} {slot : Slot} {fs' : FileSystem}
    (h : Charted P fs c id expected sha256 fs' (.approve id₀ revision) state)
    (hp : Publishes fs fs' id slot) : slot = c.target := by
  obtain ⟨hfree, i, hentry, hstage⟩ := hp
  have hnothing : fs' = fs → slot = c.target := by
    rintro rfl
    rw [hfree] at hentry
    cases hentry
  have hrelocated : Relocated fs fs' c expected → slot = c.target := by
    rintro ⟨j, inode, -, -, hrenamed⟩
    by_contra hne
    rw [hrenamed.entry slot, if_neg hne, hfree] at hentry
    split at hentry <;> cases hentry
  have hlanded : ∀ {fs₁ digest}, Landed P fs fs₁ c expected digest → fs₁.linkAt? slot = some i →
      slot = c.target := by
    rintro fs₁ digest ⟨_, _, _, j, -, -, -, -, -, hstaged⟩ hentry
    by_contra hne
    rw [hstaged.entry slot, if_neg hne, hfree] at hentry
    cases hentry
  have hretired : ∀ {digest}, Retired P fs fs' c expected digest → slot = c.target := by
    rintro digest ⟨fs₁, j, hland, hunlinked⟩
    apply hlanded hland
    rw [hunlinked.entry slot] at hentry
    split at hentry
    · cases hentry
    · exact hentry
  have hpart : ∀ {j copied}, Staged fs fs' (c.stage id) j copied → slot = c.target := by
    intro j copied hstaged
    rw [hstaged.entry slot] at hentry
    split at hentry
    · next hslot =>
      obtain rfl := Option.some.inj hentry
      exact absurd hstaged.fresh (hstage (congrArg Slot.name hslot))
    · rw [hfree] at hentry
      cases hentry
  cases state with
  | approved => exact h.elim hnothing fun h => hrelocated h.2
  | copying =>
    obtain ⟨-, hsame | ⟨j, copied, hstaged⟩ | ⟨digest, -, hland⟩⟩ := h
    · exact hnothing hsame
    · exact hpart hstaged
    · exact hlanded hland hentry
  | published =>
    obtain ⟨-, hmoved⟩ | ⟨-, digest, -, hland | hgone⟩ := h
    · exact hrelocated hmoved
    · exact hlanded hland hentry
    · exact hretired hgone
  | sourceRemoved | completed =>
    obtain ⟨-, hmoved⟩ | ⟨-, digest, -, hgone⟩ := h
    · exact hrelocated hmoved
    · exact hretired hgone
  | _ => exact h.elim

/-- What the entry says of the name: the destination token leads to the slot, and where no name
has been asked for the slot has the source's name. -/
def Honoured (events : List Event) (fs : FileSystem) (p : Proposal) (row : Row) (slot : Slot) : Prop :=
  fs.slotOf row.destinationToken = some slot ∧
    ((∀ event ∈ events, event.renames p.id = false) → ∃ relative,
      decodeRelative p.sourceRelative = .ok relative ∧ Path.fileName relative = some slot.name)

/-- The name that the lossy text of a name stands for is that name exactly where it is text. -/
theorem lossy_name {name : Bytes} {file : FileName} (hname : Path.isName name = true)
    (h : FileName.ofLossy name = some file) : file.name = name ↔ ∃ text, name = bytes text := by
  obtain ⟨found, hfound, hfile⟩ := FileName.exists_ofString (isName_toStringLossy hname)
  obtain rfl := Option.some.inj (h.symm.trans hfound)
  rw [hfile]
  constructor
  · exact fun he => ⟨_, he.symm⟩
  · rintro ⟨text, rfl⟩
    rw [toStringLossy_bytes]

section
variable {id : Uuid} {revision : Nat} {o : Opened} {ticks : List Tick}
  {rest : Sys (Except ServiceError Unit × Service)} {slot : Slot}

/-- Where a poised approval goes, and where its row says. -/
structure Bifurcates (P : Platform) (renamed : Uuid → Prop) (fs : FileSystem) (id : Uuid) (o : Opened)
    (row : Row) (targetName tokenName relative : Bytes) : Prop where
  target : Path.fileName o.destination = some targetName
  decodes : decodeRelative o.proposal.sourceRelative = .ok relative
  slot : fs.slotOf row.destinationToken = some ⟨fs.ino o.destinationFolderFd, tokenName⟩
  token : Path.fileName row.destinationToken = some tokenName
  origin : renamed id ∨ Path.fileName relative = some tokenName
  same : targetName = tokenName ↔ ∃ text, tokenName = bytes text

theorem Poised.target (h : Poised P s w id revision o row)
    (hplaced : Placed P renamed n w.db s.state.roots o.proposal) :
    ∃ targetName tokenName relative, Bifurcates P renamed w.fs id o row targetName tokenName relative := by
  obtain ⟨verifiedFd, ⟨c, root, sourceRoot, relative, rootFd, basename, hc, hroot, -, hrelative, hname,
    -, -, -, -, hfolder, hbasename, hpath⟩, -⟩ := h.ready
  obtain ⟨hmroot, hrootid, huse⟩ := findRoot_eq_some hroot
  obtain ⟨hrow, hrowid⟩ := Database.find_eq_some.mp h.found
  obtain ⟨p, hp, hid, hrevision⟩ := proposalIndex_eq_ok h.aim.index
  obtain rfl := Option.some.inj (h.aim.found.symm.trans hp)
  obtain ⟨written, hstyled, htoken⟩ := hplaced.titled row hrow (hrowid.trans hid.symm)
    (hrevision ▸ h.current) h.waits c root relative o.sourceName hc hmroot huse hrootid
    (decoded hrelative).1.symm hname
  obtain ⟨targetName, htarget, hentered⟩ := hfolder.entered hbasename
  unfold destinationBasename at hbasename
  cases hstyled with
  | @given file hshown hr =>
    rw [hshown] at hbasename
    obtain rfl := Option.some.inj hbasename
    obtain ⟨-, hnames, -⟩ := names_of_single file.single
    obtain rfl := (List.cons.inj (htarget.symm.trans hnames)).1
    exact ⟨_, _, relative,
      { target := hpath ▸ hentered.fileName
        decodes := hrelative
        slot := htoken ▸ hentered.slot
        token := htoken ▸ hentered.fileName
        origin := .inl (hid ▸ hr)
        same := iff_of_true rfl file.exists_text }⟩
  | kept hshown =>
    obtain ⟨-, hup, hslash, hstay⟩ := plain_of_fileName hname
    obtain ⟨habs, hnames⟩ := names_of_plain hslash hstay
    obtain ⟨hlead, -⟩ := hfolder.leads
    obtain ⟨hslot, -⟩ := hlead.slotOf (Path.isAbsolute_join habs)
      (by rw [Path.names_join habs, hnames]) hup
    have hisName : Path.isName o.sourceName = true := by
      refine Path.isName_iff.mpr ⟨?_, ?_, hup, hslash⟩
      · rintro he
        rw [he] at hstay
        cases hstay
      · rintro he
        rw [he] at hstay
        cases hstay
    obtain ⟨file, hfile, -⟩ := FileName.exists_ofString (isName_toStringLossy hisName)
    rw [hshown, show FileName.ofLossy o.sourceName = some file from hfile] at hbasename
    obtain rfl := Option.some.inj hbasename
    obtain ⟨-, hnames', -⟩ := names_of_single file.single
    obtain rfl := (List.cons.inj (htarget.symm.trans hnames')).1
    exact ⟨_, o.sourceName, relative,
      { target := hpath ▸ hentered.fileName
        decodes := hrelative
        slot := htoken ▸ hslot
        token := htoken ▸ fileName_join hname
        origin := .inr hname
        same := lossy_name hisName hfile }⟩

/-- **What is moved is what is journalled exactly where the name is text.** The entry that an
approval creates, finished or stopped anywhere, is the one its journal entry denotes, with the
source's own name where none has been asked for, if and only if the name the journal entry's
destination token ends in is text. -/
theorem moved_as_journalled (h : Run P (Machine.initial fs) events ⟨w, some s⟩)
    (ht : ∀ t ∈ ticks, t.Alone)
    (hrun : (((Call.approve id revision).perform P).start s).after ticks w = (rest, w'))
    (hslot : Publishes w.fs w'.fs id slot) :
    ∃ p row, s.state.findProposal id = some p ∧ w.db.find id = some row ∧
      (Honoured events w.fs p row slot ↔
        ∃ text, Path.fileName row.destinationToken = some (bytes text)) := by
  have hmoved : ¬ w'.fs = w.fs := by
    intro hsame
    obtain ⟨i, hentry, -⟩ := hslot.entry
    rw [hsame, hslot.free] at hentry
    cases hentry
  have hA : Quiet Tick.Alone := fun _ h => h
  -- what the approval has read
  obtain ⟨o, row, hpoised⟩ : ∃ o row, Poised P s w id revision o row := by
    have hwp : wpS Tick.Alone ((Call.approve id revision).perform P)
        (fun _ _ _ => ∃ o row, Poised P s w id revision o row)
        (fun _ _ w' => w'.fs = w.fs ∨ ∃ o row, Poised P s w id revision o row)
        (fun w' => w'.fs = w.fs ∨ ∃ o row, Poised P s w id revision o row) s w :=
      (wpS_bind _ _).mpr (wpS_mono (approve_poised hA) (fun _ _ _ h => h) (fun _ _ _ h => h) fun _ h => h)
    have hholds := Prog.wp_after hwp ticks ht
    rw [hrun] at hholds
    cases rest with
    | step u n => exact hholds.resolve_left hmoved
    | done r =>
      obtain ⟨e | a, s₁⟩ := r
      · exact Or.resolve_left hholds hmoved
      · exact hholds
  -- where it has gone
  obtain ⟨hsame, -⟩ | ⟨c, p, hbound, state, sha256, -, hcharted⟩ := (move_charted rfl rfl ht hrun).1
  · exact absurd hsame hmoved
  obtain rfl : slot = c.target := hcharted.publishes hslot
  obtain ⟨verifiedFd, hready⟩ := hpoised.ready
  obtain ⟨c', targetName, hcourse, hplot, hname, -⟩ := hready.course hpoised.aim
  obtain rfl := Option.some.inj (hcourse.symm.trans hbound.course)
  have hp := findProposal_of_index hpoised.aim.index hpoised.aim.found
  have hmem := List.mem_of_getElem? hpoised.aim.found
  obtain ⟨q, hq, hid, -⟩ := proposalIndex_eq_ok hpoised.aim.index
  obtain rfl := Option.some.inj (hpoised.aim.found.symm.trans hq)
  obtain ⟨found, tokenName, relative, hends⟩ := hpoised.target
    (((addressed h).running s rfl).placed o.proposal hmem)
  obtain rfl := Option.some.inj (hname.symm.trans hends.target)
  refine ⟨o.proposal, row, hp, hpoised.found, ?_⟩
  unfold Honoured
  rw [hends.slot, hends.token, hplot.target]
  constructor
  · rintro ⟨hslots, -⟩
    obtain ⟨-, hnames⟩ := Slot.mk.inj (Option.some.inj hslots)
    obtain ⟨text, htext⟩ := hends.same.mp hnames.symm
    exact ⟨text, congrArg some htext⟩
  · rintro ⟨text, htext⟩
    obtain rfl := hends.same.mpr ⟨text, Option.some.inj htext⟩
    refine ⟨rfl, fun hnone => ⟨relative, hends.decodes, ?_⟩⟩
    rcases hends.origin with ⟨event, hevent, hrenames⟩ | hsource
    · have hnot := hnone event hevent
      rw [hid, hrenames] at hnot
      cases hnot
    · exact hsource

end

end

/-! ## Two names -/

/-- The watched folder holds one file, of this name. -/
def namedFiles (name : Bytes) : FileSystem :=
  sampleFiles.setNode ⟨0, 2⟩ (.directory [(name, ⟨0, 4⟩)])

/-- The file of this name is enrolled and chosen to go to `/d`. -/
def Command.send : List Command :=
  Command.enrol (bytes "/d") ++ [.serve (.chooseDestination ⟨2⟩ 1 ⟨1⟩ ".") (quietAt 3)]

/-- What the approval leaves behind. -/
def sent (s : Service) (w : World) : Sys (Except ServiceError Unit × Service) × World :=
  (((Call.approve ⟨2⟩ 2).perform .sample).start s).after (quietAt 4) w

/-- The approval makes an entry `shown` in `/d`, where the journal says `token`. -/
def sent? (shown token : Bytes) (m : Machine) : Bool :=
  m.service.any fun s => (s.state.findProposal ⟨2⟩).isSome &&
    (m.world.db.find ⟨2⟩).any fun row =>
      decide (m.world.fs.linkAt? ⟨⟨0, 3⟩, shown⟩ = none ∧
        (sent s m.world).2.fs.linkAt? ⟨⟨0, 3⟩, shown⟩ = some ⟨0, 4⟩ ∧
        m.world.fs.slotOf row.destinationToken = some ⟨⟨0, 3⟩, token⟩ ∧
        Path.fileName row.destinationToken = some token)

theorem exists_sent (name shown token : Bytes) (hplain : shown ≠ stagingName ⟨2⟩)
    (h : ((Machine.initial (namedFiles name)).replay? .sample Command.send).any
      (fun r => sent? shown token r.2) = true) :
    ∃ events w s p row, Run .sample (Machine.initial (namedFiles name)) events ⟨w, some s⟩ ∧
      s.state.findProposal ⟨2⟩ = some p ∧ w.db.find ⟨2⟩ = some row ∧
      Publishes w.fs (sent s w).2.fs ⟨2⟩ ⟨⟨0, 3⟩, shown⟩ ∧
      w.fs.slotOf row.destinationToken = some ⟨⟨0, 3⟩, token⟩ ∧
      Path.fileName row.destinationToken = some token := by
  obtain ⟨events, m, hrun, htest⟩ := exists_run Command.send (fun _ => sent? shown token) h
  obtain ⟨w, service⟩ := m
  obtain ⟨s, hs, htest⟩ := (Option.any_eq_true _ _).mp htest
  obtain rfl : service = some s := hs
  obtain ⟨hp, htest⟩ := Bool.and_eq_true_iff.mp htest
  obtain ⟨p, hp⟩ := Option.isSome_iff_exists.mp hp
  obtain ⟨row, hrow, htest⟩ := (Option.any_eq_true _ _).mp htest
  obtain ⟨hfree, hentry, hslot, hname⟩ := of_decide_eq_true htest
  exact ⟨events, w, s, p, row, hrun, hp, hrow, ⟨hfree, _, hentry, fun he => absurd he hplain⟩,
    hslot, hname⟩

/-- A name that is text. -/
theorem moved_as_journalled_text : ∃ events w s p row,
    Run .sample (Machine.initial (namedFiles (bytes "a"))) events ⟨w, some s⟩ ∧
    s.state.findProposal ⟨2⟩ = some p ∧ w.db.find ⟨2⟩ = some row ∧
    Publishes w.fs (sent s w).2.fs ⟨2⟩ ⟨⟨0, 3⟩, bytes "a"⟩ ∧
    Honoured events w.fs p row ⟨⟨0, 3⟩, bytes "a"⟩ := by
  obtain ⟨events, w, s, p, row, hrun, hp, hrow, hslot, -, hname⟩ :=
    exists_sent (bytes "a") (bytes "a") (bytes "a") (by decide)
      (by decide +kernel)
  obtain ⟨p', row', hp', hrow', hiff⟩ := moved_as_journalled hrun quietAt_alone rfl hslot
  obtain rfl := Option.some.inj (hp.symm.trans hp')
  obtain rfl := Option.some.inj (hrow.symm.trans hrow')
  exact ⟨events, w, s, p, row, hrun, hp, hrow, hslot, hiff.mpr ⟨"a", hname⟩⟩

/-- **A name that is no text**: the journal says the byte, and the entry that is made has the
replacement character for a name. -/
theorem journalled_elsewhere : ∃ events w s p row,
    Run .sample (Machine.initial (namedFiles [0xFF])) events ⟨w, some s⟩ ∧
    s.state.findProposal ⟨2⟩ = some p ∧ w.db.find ⟨2⟩ = some row ∧
    Publishes w.fs (sent s w).2.fs ⟨2⟩ ⟨⟨0, 3⟩, bytes "\uFFFD"⟩ ∧
    w.fs.slotOf row.destinationToken = some ⟨⟨0, 3⟩, [0xFF]⟩ ∧
    ¬ Honoured events w.fs p row ⟨⟨0, 3⟩, bytes "\uFFFD"⟩ := by
  obtain ⟨events, w, s, p, row, hrun, hp, hrow, hpublished, hslot, -⟩ :=
    exists_sent [0xFF] (bytes "\uFFFD") [0xFF] (by decide)
      (by decide +kernel)
  refine ⟨events, w, s, p, row, hrun, hp, hrow, hpublished, hslot, fun hhonoured => ?_⟩
  have hsame := hslot.symm.trans hhonoured.1
  revert hsame
  decide

end SortingHat
