import SortingHat.Service.Looking
import SortingHat.Service.Naming

/-!
# What the daemon does to the files

A monitor that knows the journal sees each step of a request. It takes a change to the
files only where the journal already announces it, and other processes may act at every step.

* `Alteration`: the changes a request makes, in their order, and the journal state of each;
* `Call.handled`: every request does these and no others;
* `every_change_announced`, `nothing_overwritten`: what follows for every run of a request.
-/

namespace SortingHat
open Posix Effect FileSystem
open Journal (Row Database State)

/-- The journal has the entry in the state `st`. -/
def Holds (db : Database) (id : Uuid) (st : State) : Prop :=
  ∃ row, db.find id = some row ∧ row.state = st.asStr

/-- The proposal at this revision goes from `relative` to `destination`. -/
def Routed (state : PersistentState) (id : Uuid) (revision : Nat) (relative destination : Bytes) :
    Prop :=
  ∃ index p, state.proposalIndex id revision = .ok index ∧ state.proposals[index]? = some p ∧
    decodeRelative p.sourceRelative = .ok relative ∧ state.destinationPath p = .ok destination

/-- The request is about entries of these names, the source's and the destination's. -/
def Concerns (state : PersistentState) (id : Uuid) (revision : Nat) (source target : Bytes) : Prop :=
  ∃ relative destination, Routed state id revision relative destination ∧
    Path.fileName relative = some source ∧ Path.fileName destination = some target

/-- How far a request has come with the files. -/
inductive Progress where
  | idle
  /-- The staging file is there, and is this inode. -/
  | staged (j : InodeId)
  | published
  | finished
  deriving DecidableEq, Repr

/-- One change a request makes to the files, while the journal is `db`. -/
inductive Alteration (state : PersistentState) (call : Call) (db : Database) :
    Progress → FileSystem → FileSystem → Progress → Prop where
  | moved {id : Uuid} {revision : Nat} {s t : Slot} {i : InodeId} {fs fs' : FileSystem}
      (hcall : call = .approve id revision) (hrow : Holds db id .approved)
      (hnames : Concerns state id revision s.name t.name) (h : Renamed fs fs' s t i) :
      Alteration state call db .idle fs fs' .finished
  | created {id : Uuid} {revision : Nat} {s : Slot} {j : InodeId} {fs fs' : FileSystem}
      (hcall : call = .approve id revision) (hrow : Holds db id .copying)
      (hname : s.name = stagingName id) (h : Created fs fs' s j) :
      Alteration state call db .idle fs fs' (.staged j)
  | filled {id : Uuid} {revision : Nat} {j : InodeId} {fs fs' : FileSystem}
      (hcall : call = .approve id revision) (hrow : Holds db id .copying) (h : Changed fs fs' j) :
      Alteration state call db (.staged j) fs fs' (.staged j)
  | published {id : Uuid} {revision : Nat} {source : Bytes} {s t : Slot} {i j : InodeId}
      {fs fs' : FileSystem} (hcall : call = .approve id revision) (hrow : Holds db id .copying)
      (hdir : s.dir = t.dir) (hname : s.name = stagingName id)
      (hnames : Concerns state id revision source t.name) (h : Renamed fs fs' s t i) :
      Alteration state call db (.staged j) fs fs' .published
  | retired {id : Uuid} {revision : Nat} {target : Bytes} {s : Slot} {i : InodeId}
      {fs fs' : FileSystem} (hcall : call = .approve id revision) (hrow : Holds db id .published)
      (hnames : Concerns state id revision s.name target) (h : Unlinked fs fs' s i) :
      Alteration state call db .published fs fs' .finished
  | returned {id : Uuid} {revision : Nat} {s t : Slot} {i : InodeId} {fs fs' : FileSystem}
      (hcall : call = .undo id revision) (hrow : Holds db id .undoing)
      (hnames : Concerns state id revision t.name s.name) (h : Renamed fs fs' s t i) :
      Alteration state call db .idle fs fs' .finished

/-- The monitor of the files, while the journal is `db`. -/
def filesMonitor (state : PersistentState) (call : Call) (db : Database) :
    Monitor Tick FileSystem Progress := fun g t fs fs' g' =>
  (g' = g ∧ t.Sees fs fs') ∨ Alteration state call db g (t.found fs) fs' g'

/-- The monitor of a request: a step leaves the files to others, or makes one of the changes
and leaves the journal alone. -/
def requestMonitor (state : PersistentState) (call : Call) : Monitor Tick World Progress :=
  fun g t w w' g' => (g' = g ∧ t.Sees w.fs w'.fs) ∨
    w'.db = w.db ∧ Alteration state call w.db g (t.found w.fs) w'.fs g'

section
variable {P : Platform} {α : Type} {state : PersistentState} {call : Call} {db : Database}
  {g : Progress} {fs : FileSystem} {s : Service} {w : World}

/-! ## Calls on the files -/

theorem obeys_sees {x : FsM α} {Q : α → Progress → FileSystem → Prop} (h : EachE Tick.Sees x)
    (hQ : ∀ a fs', Q a g fs') : obeysE (filesMonitor state call db) x Q g fs := by
  have htrivial : wpE (fun _ => True) x (fun _ _ => True) (fun _ _ => True) (fun _ => True) fs := by
    apply Prog.wp_trivial
    · rintro (e | a) w' <;> exact trivial
    · exact fun _ => trivial
  exact h.obeys htrivial (fun _ _ _ hs => .inl ⟨rfl, hs⟩) fun a fs' _ => hQ a fs'

/-- A call that changes the files as the monitor knows. -/
theorem obeys_change {f : Tick → FileSystem → Except Errno (α × FileSystem)}
    {Q : α → Progress → FileSystem → Prop}
    (h : ∀ t fs a fs', f t fs = .ok (a, fs') → ∃ g', Alteration state call db g fs fs' g' ∧ Q a g' fs') :
    obeysE (filesMonitor state call db) (change f) Q g fs := by
  intro t
  have hsees : t.Sees fs (t.found fs) := .inr rfl
  dsimp only
  cases t.fault with
  | some e => exact ⟨g, .inl ⟨rfl, hsees⟩, nofun⟩
  | none =>
    dsimp only
    cases hf : f t (t.found fs) with
    | error e => exact ⟨g, .inl ⟨rfl, hsees⟩, nofun⟩
    | ok r =>
      obtain ⟨g', halters, hQ⟩ := h t _ r.1 r.2 hf
      refine ⟨g', .inr halters, fun a ha => ?_⟩
      obtain rfl := Except.ok.inj ha
      exact hQ

theorem obeys_rename {srcDir dstDir : Fd} {srcName dstName : Bytes} {g' : Progress}
    {Q : Unit → Progress → FileSystem → Prop}
    (h : ∀ fs fs' i, Renamed fs fs' ⟨fs.ino srcDir, srcName⟩ ⟨fs.ino dstDir, dstName⟩ i →
      Alteration state call db g fs fs' g')
    (hQ : ∀ fs', Q () g' fs') :
    obeysE (filesMonitor state call db) (rename srcDir srcName dstDir dstName) Q g fs := by
  apply obeys_change
  intro t fs _ fs' hf
  cases hr : fs.renameNoReplace srcDir srcName dstDir dstName with
  | error e =>
    rw [hr] at hf
    cases hf
  | ok fs₁ =>
    rw [hr] at hf
    obtain ⟨-, rfl⟩ := Prod.mk.inj (Except.ok.inj hf)
    obtain ⟨i, hrenamed⟩ := renamed_of_ok hr
    exact ⟨g', h _ _ i hrenamed, hQ _⟩

/-- One rename, and looks before and after it. -/
theorem obeys_sameFilesystemMoveAt {sourceParent destinationParent : Fd}
    {sourceName destinationName : Bytes} {expected : Identity} {g' : Progress}
    (h : ∀ fs fs' i, Renamed fs fs' ⟨fs.ino sourceParent, sourceName⟩
      ⟨fs.ino destinationParent, destinationName⟩ i → Alteration state call db g fs fs' g') :
    obeysE (filesMonitor state call db)
      (sameFilesystemMoveAt sourceParent sourceName destinationParent destinationName expected)
      (fun _ g'' _ => g'' = g') g fs := by
  unfold sameFilesystemMoveAt
  apply obeysE_bind
  apply obeys_sees (sees_openAt _ _)
  intro sourceFd fs₁
  apply obeysE_bind
  apply obeys_sees (sees_identityFd _)
  intro found fs₂
  apply obeysE_bind
  apply obeys_sees (eachE_failIf _ _)
  intro _ fs₃
  apply obeysE_bind
  apply obeysE_recast
  apply obeys_rename h
  intro fs₄
  apply obeys_sees _ fun _ _ => rfl
  apply eachE_bind sees_fsync
  intro _
  apply eachE_bind sees_fsync
  intro _
  apply eachE_bind (sees_openAt _ _)
  intro destinationFd
  exact eachE_bind (sees_identityFd _) fun moved => eachE_failIf _ _

/-- The copy writes to the staging file alone. -/
theorem obeys_copyFrom {source output : Fd} {j : InodeId} {fuel : Nat} {copied : Bytes}
    (hj : ∀ fs : FileSystem, fs.ino output = j)
    (h : ∀ fs fs', Changed fs fs' j → Alteration state call db (.staged j) fs fs' (.staged j)) :
    obeysE (filesMonitor state call db) (copyFrom source output fuel copied)
      (fun _ g' _ => g' = .staged j) (.staged j) fs := by
  induction fuel generalizing copied fs with
  | zero => exact obeysE_throw _
  | succ fuel ih =>
    unfold copyFrom
    apply obeysE_bind
    apply obeys_sees (sees_sys (sees_lookWith _))
    intro chunk fs₁
    split
    · exact obeysE_pure rfl
    apply obeysE_bind
    apply obeys_sees (eachE_failIf _ _)
    intro _ fs₂
    apply obeysE_bind
    apply obeysE_recast
    apply obeys_change
    intro t fs₃ _ fs₄ hf
    cases hw : fs₃.write output chunk t.clockNs with
    | error e =>
      rw [hw] at hf
      cases hf
    | ok written =>
      rw [hw] at hf
      obtain ⟨-, rfl⟩ := Prod.mk.inj (Except.ok.inj hf)
      obtain ⟨hchanged, -⟩ := changed_of_write hw
      rw [hj] at hchanged
      exact ⟨.staged j, h _ _ hchanged, ih⟩

theorem obeys_copyMetadata {output : Fd} {stat : Inode} {j : InodeId}
    (hj : ∀ fs : FileSystem, fs.ino output = j)
    (h : ∀ fs fs', Changed fs fs' j → Alteration state call db (.staged j) fs fs' (.staged j)) :
    obeysE (filesMonitor state call db) (copyMetadata output stat)
      (fun _ g' _ => g' = .staged j) (.staged j) fs := by
  have hset : ∀ (g : Inode → Inode) (fs : FileSystem), (∀ inode, (g inode).node = inode.node) →
      obeysE (filesMonitor state call db)
        (sys (change fun _ fs => .ok ((), fs.modify (fs.ino output) g)))
        (fun _ g' _ => g' = .staged j) (.staged j) fs := by
    intro g fs hg
    apply obeysE_recast
    apply obeys_change
    intro t fs₁ _ fs₂ hf
    obtain ⟨-, rfl⟩ := Prod.mk.inj (Except.ok.inj hf)
    have hchanged : Changed fs₁ (fs₁.modify (fs₁.ino output) g) (fs₁.ino output) :=
      changed_modify fun inode _ => by rw [hg]
    rw [hj] at hchanged ⊢
    exact ⟨.staged j, h _ _ hchanged, rfl⟩
  unfold copyMetadata
  refine obeysE_then (hset _ _ ?_) ?_
  · exact fun _ => rfl
  · rintro _ g' fs' rfl
    exact hset _ _ fun _ => rfl

/-- One creation, and writes to what it has created. -/
theorem obeys_verifiedStageCopyAt {source destinationParent : Fd} {stagingName : Bytes}
    {expected : Identity}
    (hcreated : ∀ fs fs' j, Created fs fs' ⟨fs.ino destinationParent, stagingName⟩ j →
      Alteration state call db .idle fs fs' (.staged j))
    (hfilled : ∀ fs fs' j, Changed fs fs' j →
      Alteration state call db (.staged j) fs fs' (.staged j)) :
    obeysE (filesMonitor state call db)
      (verifiedStageCopyAt P source destinationParent stagingName expected)
      (fun _ g' _ => ∃ j, g' = .staged j) .idle fs := by
  unfold verifiedStageCopyAt
  apply obeysE_bind
  apply obeys_sees (sees_identityFd _)
  intro found fs₁
  apply obeysE_bind
  apply obeys_sees (eachE_failIf _ _)
  intro _ fs₂
  apply obeysE_bind
  apply obeys_sees (sees_sys (sees_look _))
  intro sourceStat fs₃
  apply obeysE_bind
  apply obeysE_recast
  apply obeys_change
  intro t fs₄ output fs₅ hcreate
  obtain ⟨j, rfl, hmade⟩ := created_of_ok hcreate
  refine ⟨.staged j, hcreated _ _ j hmade, ?_⟩
  -- the output stays the new inode, whatever becomes of its name
  have hj : ∀ fs : FileSystem, fs.ino ((stagingName, j) :: destinationParent) = j := fun _ => rfl
  apply obeysE_bind
  apply obeys_sees (sees_sys (sees_look _))
  intro _ fs₆
  apply obeysE_then (obeys_copyFrom hj fun fs fs' => hfilled fs fs' j)
  rintro copied g' fs₇ rfl
  apply obeysE_then (obeys_copyMetadata hj fun fs fs' => hfilled fs fs' j)
  rintro _ g' fs₈ rfl
  apply obeys_sees _ fun _ _ => ⟨j, rfl⟩
  apply eachE_bind sees_fsync
  intro _
  apply eachE_bind (eachE_failIf _ _)
  intro _
  apply eachE_bind (sees_openAt _ _)
  intro staged
  apply eachE_bind (sees_sha256File _)
  intro readBack
  exact eachE_bind (eachE_failIf _ _) fun _ => eachE_pure _

theorem obeys_publishStageAt {destinationParent : Fd} {stagingName destinationName : Bytes}
    {g' : Progress}
    (h : ∀ fs fs' i, Renamed fs fs' ⟨fs.ino destinationParent, stagingName⟩
      ⟨fs.ino destinationParent, destinationName⟩ i → Alteration state call db g fs fs' g') :
    obeysE (filesMonitor state call db)
      (publishStageAt destinationParent stagingName destinationName)
      (fun _ g'' _ => g'' = g') g fs := by
  unfold publishStageAt
  apply obeysE_bind
  apply obeysE_recast
  apply obeys_rename h
  intro fs'
  exact obeys_sees sees_fsync fun _ _ => rfl

theorem sees_verifyAt (parent : Fd) (name : Bytes) (digest : String) :
    EachE Tick.Sees (verifyAt P parent name digest) := by
  unfold verifyAt
  apply eachE_bind (sees_openAt _ _)
  intro fd
  exact eachE_bind (sees_sha256File fd) fun found => eachE_failIf _ _

/-- One unlink, and looks before and after it. -/
theorem obeys_retireSourceAt {sourceParent : Fd} {sourceName : Bytes} {expected : Identity}
    {digest : String} {g' : Progress}
    (h : ∀ fs fs' i, Unlinked fs fs' ⟨fs.ino sourceParent, sourceName⟩ i →
      Alteration state call db g fs fs' g') :
    obeysE (filesMonitor state call db)
      (retireSourceAt P sourceParent sourceName expected digest) (fun _ g'' _ => g'' = g') g fs := by
  unfold retireSourceAt
  apply obeysE_bind
  apply obeys_sees (sees_openAt _ _)
  intro fd fs₁
  apply obeysE_bind
  apply obeys_sees (sees_identityFd _)
  intro found fs₂
  apply obeysE_bind
  apply obeys_sees (eachE_failIf _ _)
  intro _ fs₃
  apply obeysE_bind
  apply obeys_sees (sees_sha256File _)
  intro found fs₄
  apply obeysE_bind
  apply obeys_sees (eachE_failIf _ _)
  intro _ fs₅
  apply obeysE_bind
  apply obeysE_recast
  apply obeys_change
  intro t fs₆ _ fs₇ hf
  cases hu : fs₆.unlink sourceParent sourceName with
  | error e =>
    rw [hu] at hf
    cases hf
  | ok fs₈ =>
    rw [hu] at hf
    obtain ⟨-, rfl⟩ := Prod.mk.inj (Except.ok.inj hf)
    obtain ⟨i, hunlinked⟩ := unlinked_of_ok hu
    exact ⟨g', h _ _ i hunlinked, obeys_sees sees_fsync fun _ _ => rfl⟩

/-! ## Calls of a request -/

/-- A program on the files; the journal is what it was. -/
theorem obeys_ofFs {x : FsM α} {R : α → Progress → Prop} {Q : α → Progress → Service → World → Prop}
    (h : obeysE (filesMonitor state call w.db) x (fun a g' _ => R a g') g w.fs)
    (hQ : ∀ a g' w', R a g' → w'.db = w.db → Q a g' s w') :
    obeysS (requestMonitor state call) (ofFs x) Q g s w := by
  apply obeysS_inPart h
  · rintro g t fs fs' g' (⟨rfl, hs⟩ | hh)
    · exact .inl ⟨rfl, hs⟩
    · exact .inr ⟨rfl, hh⟩
  · exact fun a g' fs' hr => hQ a g' _ hr rfl

theorem obeys_onlySees {x : ServiceM α} {R : α → Service → World → Prop} {K : World → Prop}
    {Q : α → Progress → Service → World → Prop} (h : OnlySees x)
    (hx : wpS (fun _ => True) x R (fun _ _ _ => True) K s w)
    (hQ : ∀ a s' w', R a s' w' → Q a g s' w') :
    obeysS (requestMonitor state call) x Q g s w :=
  h.obeys hx (fun _ _ _ hs => .inl ⟨rfl, hs⟩) hQ

/-- A program on the journal. -/
theorem obeys_ofJournal {x : Journal.JournalM α} {R : α → Database → Prop}
    {Q : α → Progress → Service → World → Prop}
    (h : wpE (fun _ => True) x R (fun _ _ => True) (fun _ => True) w.db)
    (hQ : ∀ a w', R a w'.db → Q a g s w') :
    obeysS (requestMonitor state call) (ofJournal x) Q g s w := by
  have hx : wpS (fun _ => True) (ofJournal x) (fun a s' w' => s' = s ∧ R a w'.db)
      (fun _ _ _ => True) (fun _ => True) s w := by
    refine (wpS_embed _ _).mpr ((wpE_inPart _ _).mpr (wpE_mono h ?_ ?_ ?_))
    · exact fun a db hr => ⟨rfl, hr⟩
    · exact fun _ _ _ => trivial
    · exact fun _ _ => trivial
  apply obeys_onlySees (onlySees_ofJournal x) hx
  rintro a s' w' ⟨rfl, hr⟩
  exact hQ a w' hr

/-- After a transition the journal has the entry in the new state. -/
theorem obeys_transition {id : Uuid} {revision : Nat} {next : State}
    {Q : Journal.Entry → Progress → Service → World → Prop}
    (hQ : ∀ entry w', Holds w'.db id next → Q entry g s w') :
    obeysS (requestMonitor state call) (ofJournal (Journal.transition id revision next)) Q g s w := by
  apply obeys_ofJournal (R := fun _ db => Holds db id next) _ hQ
  apply Journal.transition_wp trivial (fun _ => trivial)
  intro row source t _ hfind _ _ _
  refine ⟨trivial, fun _ => trivial, fun entry _ => ⟨row.moved next t.seconds, ?_, rfl⟩⟩
  obtain ⟨-, rfl⟩ := Database.find_eq_some.mp hfind
  exact Database.find_replace (by rw [show (row.moved next t.seconds).id = row.id from rfl, hfind]; rfl)

theorem obeys_setSha256 {id : Uuid} {digest : String} {st : State}
    {Q : Unit → Progress → Service → World → Prop} (hrow : Holds w.db id st)
    (hQ : ∀ w', Holds w'.db id st → Q () g s w') :
    obeysS (requestMonitor state call) (ofJournal (Journal.setSha256 id digest)) Q g s w := by
  apply obeys_ofJournal (R := fun _ db => Holds db id st) _ fun _ => hQ
  apply Journal.setSha256_wp trivial (fun _ => trivial)
  intro row t _ hfind
  obtain ⟨row', hfind', hstate⟩ := hrow
  obtain rfl := Option.some.inj (hfind.symm.trans hfind')
  obtain ⟨-, rfl⟩ := Database.find_eq_some.mp hfind
  refine ⟨row.hashed digest t.seconds, ?_, hstate⟩
  exact Database.find_replace (by rw [show (row.hashed digest t.seconds).id = row.id from rfl, hfind]; rfl)

theorem obeys_modifyProposal {index : Nat} {f : Proposal → Proposal}
    {Q : Unit → Progress → Service → World → Prop} (hQ : ∀ s', Q () g s' w) :
    obeysS (requestMonitor state call) (modifyProposal index f) Q g s w :=
  fun _ _ => hQ _

/-- What is left of a request when it has done with the files. -/
theorem obeys_rest {x : ServiceM α} (h : OnlySees x) :
    obeysS (requestMonitor state call) x (fun _ g' _ _ => g' = g) g s w := by
  have htrivial : wpS (fun _ => True) x (fun _ _ _ => True) (fun _ _ _ => True) (fun _ => True) s w := by
    apply Prog.wp_trivial
    · rintro ⟨e | a, s'⟩ w' <;> exact trivial
    · exact fun _ => trivial
  exact obeys_onlySees h htrivial fun _ _ _ _ => rfl

/-! ## Requests -/

theorem approveChecks_routed (id : Uuid) (revision : Nat) {A : Tick → Prop} :
    Looks A fs (approveChecks P id revision) (fun o => ∃ relative,
      Routed s.state id revision relative o.1.destination ∧
      Path.fileName relative = some o.1.sourceName) s w := by
  unfold approveChecks
  apply looks_bind looks_get
  rintro _ _ rfl
  apply looks_bind looks_check
  intro index _ hindex
  apply looks_bind looks_proposalAt
  intro p _ hfound
  apply looks_bind looks_orFail
  intro choice _ hchoice
  apply looks_bind looks_orFail
  intro destinationRoot _ hdestination
  apply looks_bind looks_orFail
  intro sourceRoot _ _
  apply looks_bind looks_check
  intro relative _ hrelative
  apply looks_bind looks_openRoot
  intro rootFd _ _
  apply looks_bind looks_openBeneath
  intro verifiedFd _ _
  apply looks_bind looks_openParent
  intro sourceParentFd _ _
  apply looks_bind looks_orFail
  intro sourceName _ hname
  apply looks_bind looks_requireDirectory
  intro _ _ _
  apply looks_bind looks_openFolder
  intro destinationFolderFd _ _
  apply looks_bind looks_orFail
  intro basename _ hbasename
  apply looks_caseFolded
  intro _ _
  apply looks_pure
  refine ⟨relative, ⟨index, p, hindex, hfound, hrelative, ?_⟩, hname⟩
  unfold PersistentState.destinationPath
  rw [hrelative, hchoice]
  simp only [bind, Except.bind, hdestination, hbasename]
  rfl

theorem undoChecks_routed (id : Uuid) (revision : Nat) {A : Tick → Prop} :
    Looks A fs (undoChecks P id revision) (fun o => Routed s.state id revision o.2 o.1.destination)
      s w := by
  unfold undoChecks
  apply looks_bind looks_get
  rintro _ _ rfl
  apply looks_bind looks_check
  intro index _ hindex
  apply looks_bind looks_proposalAt
  intro p _ hfound
  apply looks_bind looks_failIf
  intro _ _ _
  apply looks_bind looks_check
  intro source _ _
  apply looks_bind looks_check
  intro destination _ hdestination
  apply looks_bind looks_pathExists
  intro present _ _
  apply looks_bind looks_failIf
  intro _ _ _
  apply looks_caseFolded
  intro _ _
  apply looks_bind looks_check
  intro relative _ hrelative
  apply looks_bind looks_orFail
  intro sourceRoot _ _
  apply looks_bind looks_orFail
  intro choice _ _
  apply looks_bind looks_orFail
  intro destinationRoot _ _
  apply looks_bind looks_openRoot
  intro rootFd _ _
  apply looks_bind looks_openParent
  intro sourceParentFd _ _
  apply looks_bind looks_openFolder
  intro destinationParentFd _ _
  apply looks_bind looks_deviceFd
  intro sourceDevice _ _
  apply looks_bind looks_deviceFd
  intro destinationDevice _ _
  apply looks_bind looks_failIf
  intro _ _ _
  apply looks_pure
  exact ⟨index, p, hindex, hfound, hrelative, hdestination⟩

theorem obeys_publishSame {o : Opened} {id : Uuid} {revision revision' : Nat} {target : Bytes}
    (hrow : Holds w.db id .approved) (hnames : Concerns state id revision o.sourceName target) :
    obeysS (requestMonitor state (.approve id revision)) (publishSame o id revision' target)
      (fun _ g' _ _ => g' = .finished) .idle s w := by
  unfold publishSame
  apply obeysS_bind
  apply obeys_ofFs (R := fun _ g' => g' = .finished)
  · apply obeys_sameFilesystemMoveAt
    exact fun fs fs' i h => .moved rfl hrow hnames h
  rintro _ g' w' rfl _
  exact obeys_rest (eachS_bind (onlySees_ofJournal _) fun _ => eachS_pure _)

theorem obeys_publishCross {o : Opened} {verifiedFd : Fd} {id : Uuid} {revision revision' : Nat}
    {target : Bytes} (hnames : Concerns state id revision o.sourceName target) :
    obeysS (requestMonitor state (.approve id revision))
      (publishCross P o verifiedFd id revision' target)
      (fun _ g' _ _ => g' = .finished) .idle s w := by
  unfold publishCross
  apply obeysS_bind
  apply obeys_transition
  intro entry w₁ hcopying
  apply obeysS_bind
  apply obeys_ofFs (R := fun _ g' => ∃ j, g' = .staged j)
  · apply obeys_verifiedStageCopyAt
    · exact fun fs fs' j h => .created rfl hcopying rfl h
    · exact fun fs fs' j h => .filled rfl hcopying h
  rintro digest g' w₂ ⟨j, rfl⟩ hdb₂
  have hcopying₂ : Holds w₂.db id .copying := by
    rw [hdb₂]
    exact hcopying
  apply obeysS_bind
  apply obeys_setSha256 hcopying₂
  intro w₃ hcopying₃
  apply obeysS_bind
  apply obeys_ofFs (R := fun _ g' => g' = .published)
  · apply obeys_publishStageAt
    intro fs fs' i h
    refine .published rfl hcopying₃ ?_ ?_ hnames h
    · exact rfl
    · exact rfl
  rintro _ g' w₄ rfl _
  apply obeysS_bind
  apply obeys_ofFs (R := fun _ g' => g' = .published)
  · exact obeys_sees (sees_verifyAt _ _ _) fun _ _ => rfl
  rintro _ g' w₅ rfl _
  apply obeysS_bind
  apply obeys_transition
  intro entry' w₆ hpublished
  apply obeysS_bind
  apply obeys_ofFs (R := fun _ g' => g' = .finished)
  · apply obeys_retireSourceAt
    exact fun fs fs' i h => .retired rfl hpublished hnames h
  rintro _ g' w₇ rfl _
  exact obeysS_pure rfl

theorem obeys_approve {id : Uuid} {revision : Nat} :
    obeysS (requestMonitor s.state (.approve id revision)) (approve P id revision)
      (fun _ g' _ _ => g' = .finished) .idle s w := by
  unfold approve
  apply obeysS_bind
  apply obeys_onlySees (onlySees_approveChecks id revision)
    (wpS_mono ((approveChecks_routed id revision).wp fun _ => rfl) (fun _ _ _ h => h)
      (fun _ _ _ _ => trivial) fun _ h => h)
  rintro ⟨o, verifiedFd⟩ s₁ w₁ ⟨rfl, -, relative, hrouted, hname⟩
  dsimp only
  unfold approveMove
  apply obeysS_bind
  apply obeys_transition
  intro entry w₂ happroved
  apply obeysS_bind
  apply obeys_modifyProposal
  intro s₃
  apply obeysS_bind
  apply obeysS_orFail
  intro target htarget
  have hnames : Concerns s₁.state id revision o.sourceName target :=
    ⟨relative, o.destination, hrouted, hname, htarget⟩
  apply obeysS_bind
  apply obeys_ofFs (R := fun _ g' => g' = .idle)
  · exact obeys_sees (sees_deviceFd _) fun _ _ => rfl
  rintro sourceDevice g' w₄ rfl hdb₄
  apply obeysS_bind
  apply obeys_ofFs (R := fun _ g' => g' = .idle)
  · exact obeys_sees (sees_deviceFd _) fun _ _ => rfl
  rintro destinationDevice g' w₅ rfl hdb₅
  have hrow : Holds w₅.db id .approved := by
    rw [hdb₅, hdb₄]
    exact happroved
  apply obeysS_then (R := fun _ g' _ _ => g' = .finished)
  · split
    · exact obeys_publishSame hrow hnames
    · exact obeys_publishCross hnames
  rintro published g' s₆ w₆ rfl
  apply obeys_rest
  apply eachS_bind (onlySees_ofJournal _)
  intro removed
  apply eachS_bind (onlySees_ofJournal _)
  exact fun completed => onlySees_finish _ _ _

theorem obeys_undo {id : Uuid} {revision : Nat} :
    obeysS (requestMonitor s.state (.undo id revision)) (undo P id revision)
      (fun _ g' _ _ => g' = .finished) .idle s w := by
  unfold undo
  apply obeysS_bind
  apply obeys_onlySees (onlySees_undoChecks id revision)
    (wpS_mono ((undoChecks_routed id revision).wp fun _ => rfl) (fun _ _ _ h => h)
      (fun _ _ _ _ => trivial) fun _ h => h)
  rintro ⟨o, relative⟩ s₁ w₁ ⟨rfl, -, hrouted⟩
  dsimp only
  unfold undoMove
  apply obeysS_bind
  apply obeys_transition
  intro entry w₂ hundoing
  apply obeysS_bind
  apply obeysS_orFail
  intro target htarget
  apply obeysS_bind
  apply obeysS_orFail
  intro source hsource
  have hnames : Concerns s₁.state id revision source target :=
    ⟨relative, o.destination, hrouted, hsource, htarget⟩
  apply obeysS_bind
  apply obeys_ofFs (R := fun _ g' => g' = .finished)
  · apply obeys_sameFilesystemMoveAt
    exact fun fs fs' i h => .returned rfl hundoing hnames h
  rintro _ g' w₃ rfl _
  apply obeys_rest
  apply eachS_bind (onlySees_ofJournal _)
  exact fun undone => onlySees_finish _ _ _

/-- **A request does what the monitor knows, and where it moves a file and succeeds, all of it.** -/
theorem Call.handled (call : Call) (s : Service) (w : World) :
    obeysS (requestMonitor s.state call) (call.perform P)
      (fun _ g' _ _ => g' = if call.moves then .finished else .idle) .idle s w := by
  by_cases hmoves : call.moves = true
  · cases call with
    | approve id revision =>
      apply obeysS_then obeys_approve
      rintro p g' s' w' rfl
      exact obeysS_pure rfl
    | undo id revision =>
      apply obeysS_then obeys_undo
      rintro p g' s' w' rfl
      exact obeysS_pure rfl
    | _ => cases hmoves
  · rw [if_neg hmoves]
    exact obeys_rest (Call.only_sees (Bool.eq_false_iff.mpr hmoves))

/-- **Every change to the files is announced.** Whatever other processes do at each step, the
steps of a request, finished or cut, are steps of the monitor: each change to the files is made
while the journal has the entry in the state that stands for it, and in its order. Where the
request moves a file and succeeds, it has made all of them. An open makes none. -/
theorem every_change_announced :
    (∀ (call : Call) (s : Service) (w : World) (ticks : List Tick), ∃ g,
      Accepts (requestMonitor s.state call) .idle (((call.perform P).start s).trail ticks w) g ∧
      ∀ s' w', ((call.perform P).start s).after ticks w = (.done (.ok (), s'), w') →
        g = if call.moves then .finished else .idle) ∧
    ∀ (w : World) (ticks : List Tick), ∀ x ∈ (ExceptT.run (Service.open P)).trail ticks w,
      x.1.Sees x.2.1.fs x.2.2.fs := by
  constructor
  · intro call s w ticks
    obtain ⟨g, haccepts, hresult⟩ := Prog.Obeys.accepts (Call.handled call s w) ticks
    refine ⟨g, haccepts, fun s' w' hdone => ?_⟩
    exact hresult _ _ hdone () rfl
  · exact fun w ticks => Prog.Each.trail open_only_sees ticks w

/-! ## What is never done -/

/-- The names under which a request may remove an entry. -/
def Call.removes (state : PersistentState) : Call → Bytes → Prop
  | .approve id revision, name =>
    name = stagingName id ∨ ∃ target, Concerns state id revision name target
  | .undo id revision, name => ∃ source, Concerns state id revision source name
  | _, _ => False

/-- The names under which a request may make an entry. -/
def Call.makes (state : PersistentState) : Call → Bytes → Prop
  | .approve id revision, name =>
    name = stagingName id ∨ ∃ source, Concerns state id revision source name
  | .undo id revision, name => ∃ target, Concerns state id revision name target
  | _, _ => False

/-- One of these steps has created the file `k`. -/
def Creates (past : Trail Tick World) (k : InodeId) : Prop :=
  ∃ x ∈ past, (x.1.found x.2.1.fs).inodes k = none ∧ x.2.2.fs.content? k = some []

/-- A step, after others of the same request, that takes nothing from anybody: an entry is
replaced by no other, and only files of the request's own making are written to. -/
structure Respects (state : PersistentState) (call : Call) (past : Trail Tick World)
    (fs fs' : FileSystem) : Prop where
  removed : ∀ u i, fs.linkAt? u = some i → fs'.linkAt? u = some i ∨
    fs'.linkAt? u = none ∧ call.removes state u.name
  made : ∀ u, fs.linkAt? u = none → fs'.linkAt? u = none ∨ call.makes state u.name
  content : ∀ k data, fs.content? k = some data → fs'.content? k = some data ∨ Creates past k

section
variable {fs' : FileSystem} {g' : Progress} {past : Trail Tick World}

theorem respects_renamed {s t : Slot} {i : InodeId} (h : Renamed fs fs' s t i)
    (hs : call.removes state s.name) (ht : call.makes state t.name) :
    Respects state call past fs fs' where
  removed u k hk := by
    rw [h.entry]
    by_cases hut : u = t
    · rw [hut, h.free] at hk
      cases hk
    by_cases hus : u = s
    · rw [if_neg hut, if_pos hus, hus]
      exact .inr ⟨rfl, hs⟩
    · rw [if_neg hut, if_neg hus]
      exact .inl hk
  made u hu := by
    rw [h.entry]
    by_cases hut : u = t
    · exact .inr (hut ▸ ht)
    · rw [if_neg hut, hu]
      exact .inl (ite_self _)
  content k data hk := .inl ((h.content? fun h => h).trans hk)

/-- Each of the changes takes nothing from anybody. -/
theorem Alteration.respects (h : Alteration state call db g fs fs' g')
    (hstaged : ∀ j, g = .staged j → Creates past j) : Respects state call past fs fs' := by
  cases h with
  | moved hcall _ hnames h =>
    subst hcall
    exact respects_renamed h (.inr ⟨_, hnames⟩) (.inr ⟨_, hnames⟩)
  | returned hcall _ hnames h =>
    subst hcall
    exact respects_renamed h ⟨_, hnames⟩ ⟨_, hnames⟩
  | published hcall _ _ hname hnames h =>
    subst hcall
    exact respects_renamed h (.inl hname) (.inr ⟨_, hnames⟩)
  | created hcall _ hname h =>
    subst hcall
    constructor
    · intro u i hu
      rw [h.entry]
      split
      · next hus =>
        rw [hus, h.free] at hu
        cases hu
      · exact .inl hu
    · intro u hu
      rw [h.entry]
      split
      · next hus => exact .inr (.inl (hus ▸ hname))
      · exact .inl hu
    · intro k data hk
      refine .inl ((h.content? fun hkj => ?_).trans hk)
      unfold content? node? at hk
      rw [hkj, h.fresh] at hk
      cases hk
  | @filled _ _ j _ _ hcall _ h =>
    refine ⟨fun u i hu => .inl ((h.entry u).trans hu), fun u hu => .inl ((h.entry u).trans hu), ?_⟩
    intro k data hk
    by_cases hkj : k = j
    · exact .inr (hkj ▸ hstaged j rfl)
    · exact .inl ((h.content? hkj).trans hk)
  | @retired _ _ _ _ i _ _ hcall _ hnames h =>
    subst hcall
    constructor
    · intro u k hu
      rw [h.entry]
      split
      · next hus => exact .inr ⟨rfl, .inr ⟨_, hus ▸ hnames⟩⟩
      · exact .inl hu
    · intro u hu
      rw [h.entry, hu]
      exact .inl (ite_self _)
    · intro k data hk
      by_cases hki : k = i
      · exact .inl (by rw [hki, h.content, ← hki, hk])
      · exact .inl ((h.content? hki).trans hk)

/-- What the monitor takes it takes after what it has taken. -/
theorem accepts_respects {trail : Trail Tick World}
    (h : Accepts (requestMonitor state call) g trail g')
    (hstaged : ∀ j, g = .staged j → Creates past j) {before after : Trail Tick World} {t : Tick}
    {w w' : World} (htrail : trail = before ++ (t, w, w') :: after) :
    w'.fs = w.fs ∨ Respects state call (past ++ before) (t.found w.fs) w'.fs := by
  induction h generalizing past before with
  | nil => exact absurd htrail (by simp)
  | @cons g₁ g₂ _ t₁ w₁ w₁' rest hstep hrest ih =>
    cases before with
    | nil =>
      obtain ⟨hhead, rfl⟩ := List.cons.inj htrail
      obtain ⟨rfl, hworlds⟩ := Prod.mk.inj hhead
      obtain ⟨rfl, rfl⟩ := Prod.mk.inj hworlds
      rcases hstep with ⟨-, hsame | hfound⟩ | ⟨-, halters⟩
      · exact .inl hsame
      · right
        rw [hfound]
        exact ⟨fun _ _ hu => .inl hu, fun _ hu => .inl hu, fun _ _ hk => .inl hk⟩
      · right
        rw [List.append_nil]
        exact halters.respects hstaged
    | cons first before =>
      obtain ⟨rfl, htail⟩ := List.cons.inj htrail
      have hnext : ∀ j, g₂ = .staged j → Creates (past ++ [(t₁, w₁, w₁')]) j := by
        have hmore : ∀ j, Creates past j → Creates (past ++ [(t₁, w₁, w₁')]) j :=
          fun j ⟨x, hx, hmade⟩ => ⟨x, List.mem_append_left _ hx, hmade⟩
        rintro j rfl
        rcases hstep with ⟨hsame, -⟩ | ⟨-, halters⟩
        · exact hmore j (hstaged j hsame.symm)
        cases halters with
        | created _ _ _ h =>
          exact ⟨_, List.mem_append_right _ (List.mem_singleton_self _), h.fresh, h.content⟩
        | filled => exact hmore j (hstaged j rfl)
      have hlater := ih hnext htail
      rwa [List.append_assoc] at hlater

end

/-- **Nothing is overwritten.** Whatever other processes do at each step of a request, the step
either leaves the files as they are, or it takes nothing from anybody: where an entry was, there
is the same entry or, under a name of the request's own, none; and a file with content keeps it
unless the request itself has created the file. -/
theorem nothing_overwritten {call : Call} {s : Service} {w w₁ w₂ : World} {ticks : List Tick}
    {before after : Trail Tick World} {t : Tick}
    (h : ((call.perform P).start s).trail ticks w = before ++ (t, w₁, w₂) :: after) :
    w₂.fs = w₁.fs ∨ Respects s.state call before (t.found w₁.fs) w₂.fs := by
  obtain ⟨g, haccepts, -⟩ := Prog.Obeys.accepts (Call.handled (P := P) call s w) ticks
  have hrespects : w₂.fs = w₁.fs ∨ Respects s.state call ([] ++ before) (t.found w₁.fs) w₂.fs :=
    accepts_respects haccepts nofun h
  rwa [List.nil_append] at hrespects

end

/-- The approval of the sample; another process puts a file `b` into `/d` just before the
rename. -/
def disturbed : Trail Tick World :=
  let others := (sampleFiles.put ⟨0, 5⟩ (some (file (bytes "b")))).enter ⟨⟨0, 3⟩, bytes "b"⟩ ⟨0, 5⟩
  (((Call.approve ⟨2⟩ 1).perform .sample).start
    (.fresh (sampleState [sampleProposal 1 .proposed]))).trail
    ((quietAt 4).set 14 { Tick.quiet 4000000000 with others := some others })
    (sampleWorld sampleFiles (sampleRow 1 .proposed) (sampleState [sampleProposal 1 .proposed]))

/-- The step of the rename, that finds the other file. -/
def disturbs (x : Tick × World × World) : Bool :=
  decide ((x.1.found x.2.1.fs).linkAt? ⟨⟨0, 2⟩, bytes "a"⟩ = some ⟨0, 4⟩ ∧
    (x.1.found x.2.1.fs).linkAt? ⟨⟨0, 3⟩, bytes "b"⟩ = some ⟨0, 5⟩ ∧
    x.2.2.fs.linkAt? ⟨⟨0, 3⟩, bytes "a"⟩ = some ⟨0, 4⟩)

/-- A rename next to a file that has just been put there. -/
theorem nothing_overwritten_disturbed : ∃ before t w₁ w₂ after,
    disturbed = before ++ (t, w₁, w₂) :: after ∧ disturbs (t, w₁, w₂) = true ∧
    (w₂.fs = w₁.fs ∨ Respects (sampleState [sampleProposal 1 .proposed]) (.approve ⟨2⟩ 1) before
      (t.found w₁.fs) w₂.fs) := by
  have hany : disturbed.any disturbs = true := by decide +kernel
  obtain ⟨⟨t, w₁, w₂⟩, hmem, htest⟩ := List.any_eq_true.mp hany
  obtain ⟨before, after, hsplit⟩ := List.append_of_mem hmem
  exact ⟨before, t, w₁, w₂, after, hsplit, htest, nothing_overwritten hsplit⟩

end SortingHat
