import SortingHat.Service.Steps
import SortingHat.Service.Ledger

/-!
# What a move has opened

The first halves of `approve` and `undo` only look. What they have seen, while no
other process touches the files, is one fact about one file system.

* `Looks`: an action that only looks, with its rules;
* `Readied`, `approveChecks_looks`: what `approve` has checked;
* `Returnable`, `undoChecks_looks`: what `undo` has checked.
-/

namespace SortingHat
open Posix Effect Text

/-- The action only looks, and what it returns satisfies `R`. Where it is alone with
the files, they are `fs`. -/
structure Looks (A : Tick → Prop) (fs : FileSystem) {α : Type} (x : ServiceM α) (R : α → Prop)
    (s : Service) (w : World) : Prop where
  wp : (Quiet A → w.fs = fs) → wpS A x (fun a s' w' => s' = s ∧ Untouched A w w' ∧ R a)
    (fun _ s' w' => s' = s ∧ Untouched A w w') (fun w' => Untouched A w w') s w

section
variable {A : Tick → Prop} {fs : FileSystem} {P : Platform} {α β : Type} {s : Service} {w : World}
  {x : ServiceM α} {R R' : α → Prop}

theorem Looks.mono (h : Looks A fs x R s w) (hR : ∀ a, R a → R' a) : Looks A fs x R' s w := by
  constructor
  intro hfs
  apply wpS_mono (h.wp hfs)
  · rintro a s' w' ⟨hs, hu, ha⟩
    exact ⟨hs, hu, hR a ha⟩
  · exact fun _ _ _ ha => ha
  · exact fun _ ha => ha

theorem looks_bind {f : α → ServiceM β} {Q : β → Prop} (hx : Looks A fs x R s w)
    (hf : ∀ a w', R a → Looks A fs (f a) Q s w') : Looks A fs (x >>= f) Q s w := by
  constructor
  intro hfs
  refine (wpS_bind _ _).mpr (wpS_mono (hx.wp hfs) ?_ (fun _ _ _ h => h) fun _ h => h)
  rintro a s' w' ⟨rfl, hu, ha⟩
  apply wpS_mono ((hf a w' ha).wp fun hq => (hu.fs hq).trans (hfs hq))
  · exact fun b s'' w'' h => ⟨h.1, hu.trans h.2.1, h.2.2⟩
  · exact fun _ s'' w'' h => ⟨h.1, hu.trans h.2⟩
  · exact fun w'' h => hu.trans h

/-- After a look the rest goes on as before it. -/
theorem wpS_looks {w₀ : World} {f : α → ServiceM β} {Q : β → Service → World → Prop}
    (hu : Untouched A w₀ w) (hx : Looks A w₀.fs x R s w)
    (hf : ∀ a w', Untouched A w₀ w' → R a →
      wpS A (f a) Q (fun _ _ _ => True) (fun _ => True) s w') :
    wpS A (x >>= f) Q (fun _ _ _ => True) (fun _ => True) s w := by
  refine (wpS_bind _ _).mpr (wpS_mono (hx.wp hu.fs) ?_ (fun _ _ _ _ => trivial) fun _ _ => trivial)
  rintro a s' w' ⟨rfl, hu', ha⟩
  exact hf a w' (hu.trans hu') ha

theorem looks_pure {a : α} (h : R a) : Looks A fs (pure a) R s w :=
  ⟨fun _ => ⟨rfl, .refl w, h⟩⟩

theorem looks_get : Looks A fs getState (fun state => state = s.state) s w :=
  ⟨fun _ => ⟨rfl, .refl w, rfl⟩⟩

theorem looks_orFail {o : Option α} {e : ServiceError} :
    Looks A fs (orFail o e) (fun a => o = some a) s w :=
  ⟨fun _ => (wpS_orFail o e).mpr ⟨fun _ => ⟨rfl, .refl w⟩, fun _ ha => ⟨rfl, .refl w, ha⟩⟩⟩

theorem looks_failIf {c : Prop} [Decidable c] {e : ServiceError} :
    Looks A fs (failIf c e) (fun _ => ¬ c) s w :=
  ⟨fun _ => (wpS_failIf c e).mpr ⟨fun _ => ⟨rfl, .refl w⟩, fun hc => ⟨rfl, .refl w, hc⟩⟩⟩

theorem looks_check {r : Except ServiceError α} :
    Looks A fs (check r) (fun a => r = .ok a) s w := by
  cases r with
  | error e => exact ⟨fun _ => ⟨rfl, .refl w⟩⟩
  | ok a => exact ⟨fun _ => ⟨rfl, .refl w, rfl⟩⟩

/-- A program on the files alone that only looks. -/
theorem looks_files {δ : Type} {f : δ → ServiceError} {y : Fallible Tick FileSystem δ α}
    (h : Quiet A → wpE A y (fun a fs' => fs' = fs ∧ R a) (fun _ fs' => fs' = fs)
      (fun fs' => fs' = fs) fs) :
    Looks A fs (embed f (inPart World.files y)) (fun a => Quiet A → R a) s w := by
  constructor
  intro hfs
  apply looks_wp
  intro hq
  rw [hfs hq]
  exact h hq

theorem looks_sys {g : FileSystem → Except Errno α} :
    Looks A fs (ofFs (sys (look g))) (fun a => Quiet A → g fs = .ok a) s w :=
  looks_files fun hq => (wpE_recast _ _).mpr
    (look_wp hq rfl (fun _ _ _ _ => rfl) (fun _ ha => ⟨rfl, ha⟩) fun _ _ => rfl)

/-- A call of the request itself. -/
theorem looks_look {g : FileSystem → Except Errno α} :
    Looks A fs (ofIo (look g)) (fun a => Quiet A → g fs = .ok a) s w :=
  looks_files fun hq => look_wp hq rfl (fun _ _ _ _ => rfl) (fun _ ha => ⟨rfl, ha⟩) fun _ _ => rfl

/-- A draw does not fail. -/
theorem draw_wp {Q : Uuid → Service → World → Prop} {E : ServiceError → Service → World → Prop}
    {K : World → Prop} (hK : K w) (hQ : Q (P.uuid w.drawn) s { w with drawn := w.drawn + 1 }) :
    wpS A (draw P) Q E K s w :=
  (wpS_embed _ _).mpr ((wpE_inPart _ _).mpr ⟨hK, fun _ _ => hQ⟩)

/-! ## Opening -/

theorem looks_openRoot {root : Bytes} :
    Looks A fs (ofFs (openRoot root)) (fun fd => Quiet A → fs.openDirectory root = .ok fd) s w :=
  looks_sys

theorem looks_openBeneath {root : Fd} {relative : Bytes} {directory : Bool} :
    Looks A fs (ofFs (openBeneath root relative directory))
      (fun fd => Quiet A → fs.openBeneath root relative directory true = .ok fd) s w := by
  unfold openBeneath
  cases validateRelative relative with
  | error e => exact ⟨fun _ => ⟨rfl, .refl w⟩⟩
  | ok u => exact looks_sys

/-- What `openParent` opens. -/
def ParentOpened (fs : FileSystem) (rootFd : Fd) (rootPath relative : Bytes) (fd : Fd) : Prop :=
  match (Path.parent relative).filter fun p => p ≠ [] with
  | some parent => fs.openBeneath rootFd parent true true = .ok fd
  | none => fs.openDirectory rootPath = .ok fd

theorem looks_openParent {rootFd : Fd} {rootPath relative : Bytes} :
    Looks A fs (openParent rootFd rootPath relative)
      (fun fd => Quiet A → ParentOpened fs rootFd rootPath relative fd) s w := by
  unfold openParent ParentOpened
  cases (Path.parent relative).filter fun p => p ≠ [] with
  | some parent => exact looks_openBeneath
  | none => exact looks_openRoot

/-- What `openFolder` opens. -/
def FolderOpened (fs : FileSystem) (rootPath : Bytes) (directory : String) (fd : Fd) : Prop :=
  if directory = "." then fs.openDirectory rootPath = .ok fd
  else ∃ rootFd, fs.openDirectory rootPath = .ok rootFd ∧
    fs.openBeneath rootFd (bytes directory) true true = .ok fd

theorem looks_openFolder {rootPath : Bytes} {directory : String} :
    Looks A fs (openFolder rootPath directory)
      (fun fd => Quiet A → FolderOpened fs rootPath directory fd) s w := by
  unfold openFolder FolderOpened
  apply looks_bind looks_openRoot
  intro rootFd w' hroot
  by_cases hdot : directory = "."
  · simp only [hdot, if_true]
    exact looks_openRoot
  · simp only [hdot, if_false]
    exact looks_openBeneath.mono fun fd hfd hq => ⟨rootFd, hroot hq, hfd hq⟩

/-- The path names a directory itself, not a link to one. -/
def DirectoryAt (fs : FileSystem) (path : Bytes) : Prop :=
  ∃ i inode, fs.stat false path = .ok (i, inode) ∧ inode.node.entries?.isSome = true

theorem looks_requireDirectory {path : Bytes} :
    Looks A fs (requireDirectory path) (fun _ => Quiet A → DirectoryAt fs path) s w := by
  unfold requireDirectory
  apply looks_bind looks_look
  rintro ⟨i, inode⟩ w' hstat
  apply looks_failIf.mono
  intro _ hdir hq
  exact ⟨i, inode, hstat hq, Bool.eq_true_of_not_eq_false hdir⟩

/-- No entry of the path's directory has its name up to case. -/
def CaseFree (P : Platform) (fs : FileSystem) (path : Bytes) : Prop :=
  ∃ name parent entries, Path.fileName path = some name ∧ Path.parent path = some parent ∧
    fs.readDir parent = .ok entries ∧ ∀ e ∈ entries, folded P e.1 ≠ folded P name

theorem looks_caseFolded {path : Bytes} {e : ServiceError} {f : Unit → ServiceM β} {Q : β → Prop}
    (hf : ∀ w', (Quiet A → CaseFree P fs path) → Looks A fs (f ()) Q s w') :
    Looks A fs (ofFs (destinationExistsCaseFolded P path) >>= fun taken =>
      failIf (taken = true) e >>= f) Q s w := by
  apply looks_bind (R := fun taken => Quiet A → taken = false → CaseFree P fs path)
  · apply looks_files
    intro hq
    unfold destinationExistsCaseFolded
    refine (wpE_bind _ _).mpr ((wpE_orFail _ _).mpr ⟨fun _ => rfl, fun name hname => ?_⟩)
    refine (wpE_bind _ _).mpr ((wpE_orFail _ _).mpr ⟨fun _ => rfl, fun parent hparent => ?_⟩)
    refine (wpE_bind _ _).mpr ((wpE_recast _ _).mpr (look_wp hq rfl (fun _ _ _ _ => rfl) ?_
      fun _ _ => rfl))
    intro entries hentries
    refine (wpE_pure _).mpr ⟨rfl, fun hnone => ?_⟩
    refine ⟨name, parent, entries, hname, hparent, hentries, fun entry he heq => ?_⟩
    have := List.any_eq_false.mp hnone entry he
    simp [heq] at this
  · intro taken w' htaken
    apply looks_bind looks_failIf
    intro _ w'' hfree
    apply hf
    intro hq
    exact htaken hq (Bool.eq_false_iff.mpr hfree)

theorem looks_deviceFd {fd : Fd} :
    Looks A fs (ofFs (deviceFd fd)) (fun device => Quiet A → device = (fs.ino fd).device) s w := by
  apply looks_files
  intro hq
  unfold deviceFd
  refine (wpE_bind _ _).mpr ((wpE_recast _ _).mpr (look_wp hq rfl (fun _ _ _ _ => rfl) ?_
    fun _ _ => rfl))
  rintro ⟨i, inode⟩ hstat
  refine (wpE_pure _).mpr ⟨rfl, ?_⟩
  unfold FileSystem.fstat at hstat
  split at hstat
  · cases hstat
    rfl
  · cases hstat

theorem looks_proposalAt {index : Nat} :
    Looks A fs (proposalAt index) (fun p => s.state.proposals[index]? = some p) s w := by
  unfold proposalAt
  apply looks_bind looks_get
  rintro _ w₁ rfl
  exact looks_orFail

/-! ## Approving -/

/-- What `approve` has seen before it commits its intent. -/
structure Readied (P : Platform) (s : Service) (fs : FileSystem) (o : Opened) (verifiedFd : Fd) :
    Prop where
  route : ∃ choice destinationRoot sourceRoot relative rootFd basename,
    o.proposal.destination = some choice ∧
    s.state.findRoot choice.rootId Root.destination = some destinationRoot ∧
    s.state.findRoot o.proposal.sourceRootId Root.watched = some sourceRoot ∧
    decodeRelative o.proposal.sourceRelative = .ok relative ∧
    Path.fileName relative = some o.sourceName ∧
    fs.openDirectory (bytes sourceRoot.path) = .ok rootFd ∧
    fs.openBeneath rootFd relative false true = .ok verifiedFd ∧
    ParentOpened fs rootFd (bytes sourceRoot.path) relative o.sourceParentFd ∧
    DirectoryAt fs (Path.join (bytes destinationRoot.path) (bytes choice.directory)) ∧
    FolderOpened fs (bytes destinationRoot.path) choice.directory o.destinationFolderFd ∧
    destinationBasename o.proposal relative = some basename ∧
    o.destination =
      Path.join (Path.join (bytes destinationRoot.path) (bytes choice.directory)) basename
  free : CaseFree P fs o.destination

theorem approveChecks_looks (id : Uuid) (revision : Nat) :
    Looks A fs (approveChecks P id revision) (fun o => Aimed s id revision o.1 ∧
      (Quiet A → Readied P s fs o.1 o.2)) s w := by
  unfold approveChecks
  apply looks_bind looks_get
  rintro _ _ rfl
  apply looks_bind looks_check
  intro index _ hindex
  apply looks_bind looks_proposalAt
  intro proposal _ hfound
  apply looks_bind looks_orFail
  intro choice _ hchoice
  apply looks_bind looks_orFail
  intro destinationRoot _ hdestination
  apply looks_bind looks_orFail
  intro sourceRoot _ hsource
  apply looks_bind looks_check
  intro relative _ hrelative
  apply looks_bind looks_openRoot
  intro rootFd _ hroot
  apply looks_bind looks_openBeneath
  intro verifiedFd _ hverified
  apply looks_bind looks_openParent
  intro sourceParentFd _ hparent
  apply looks_bind looks_orFail
  intro sourceName _ hname
  apply looks_bind looks_requireDirectory
  intro _ _ hdirectory
  apply looks_bind looks_openFolder
  intro destinationFolderFd _ hfolder
  apply looks_bind looks_orFail
  intro basename _ hbasename
  apply looks_caseFolded
  intro _ hfree
  apply looks_pure
  refine ⟨⟨hindex, hfound⟩, fun hq => ⟨?_, hfree hq⟩⟩
  exact ⟨choice, destinationRoot, sourceRoot, relative, rootFd, basename, hchoice, hdestination,
    hsource, hrelative, hname, hroot hq, hverified hq, hparent hq, hdirectory hq, hfolder hq,
    hbasename, rfl⟩

/-! ## Undoing -/

/-- What `undo` has seen before it commits its intent. -/
structure Returnable (P : Platform) (s : Service) (fs : FileSystem) (o : Opened) (relative : Bytes) :
    Prop where
  completed : o.proposal.status = .completed
  route : ∃ choice destinationRoot sourceRoot rootFd source,
    o.proposal.destination = some choice ∧
    s.state.findRoot choice.rootId (fun _ => true) = some destinationRoot ∧
    s.state.findRoot o.proposal.sourceRootId (fun _ => true) = some sourceRoot ∧
    decodeRelative o.proposal.sourceRelative = .ok relative ∧
    s.state.sourcePath o.proposal = .ok source ∧
    s.state.destinationPath o.proposal = .ok o.destination ∧
    CaseFree P fs source ∧
    fs.openDirectory (bytes sourceRoot.path) = .ok rootFd ∧
    ParentOpened fs rootFd (bytes sourceRoot.path) relative o.sourceParentFd ∧
    FolderOpened fs (bytes destinationRoot.path) choice.directory o.destinationFolderFd
  device : (fs.ino o.sourceParentFd).device = (fs.ino o.destinationFolderFd).device

theorem looks_pathExists {path : Bytes} : Looks A fs (pathExists path) (fun _ => True) s w := by
  unfold pathExists
  apply looks_bind (R := fun _ => Quiet A → True)
  · exact looks_files fun hq => (wpE_observe _).mpr
      (look_wp hq rfl (fun _ _ _ _ => ⟨rfl, trivial⟩) (fun _ _ => ⟨rfl, trivial⟩)
        fun _ _ => ⟨rfl, trivial⟩)
  · exact fun _ _ _ => looks_pure trivial

theorem undoChecks_looks (id : Uuid) (revision : Nat) :
    Looks A fs (undoChecks P id revision) (fun o => Aimed s id revision o.1 ∧
      (Quiet A → Returnable P s fs o.1 o.2)) s w := by
  unfold undoChecks
  apply looks_bind looks_get
  rintro _ _ rfl
  apply looks_bind looks_check
  intro index _ hindex
  apply looks_bind looks_proposalAt
  intro proposal _ hfound
  apply looks_bind looks_failIf
  intro _ _ hcompleted
  apply looks_bind looks_check
  intro source _ hsource
  apply looks_bind looks_check
  intro destination _ hdestination
  apply looks_bind looks_pathExists
  intro present _ _
  apply looks_bind looks_failIf
  intro _ _ _
  apply looks_caseFolded
  intro _ hfree
  apply looks_bind looks_check
  intro relative _ hrelative
  apply looks_bind looks_orFail
  intro sourceRoot _ hsourceRoot
  apply looks_bind looks_orFail
  intro choice _ hchoice
  apply looks_bind looks_orFail
  intro destinationRoot _ hdestinationRoot
  apply looks_bind looks_openRoot
  intro rootFd _ hroot
  apply looks_bind looks_openParent
  intro sourceParentFd _ hparent
  apply looks_bind looks_openFolder
  intro destinationParentFd _ hfolder
  apply looks_bind looks_deviceFd
  intro sourceDevice _ hsourceDevice
  apply looks_bind looks_deviceFd
  intro destinationDevice _ hdestinationDevice
  apply looks_bind looks_failIf
  intro _ _ hdevice
  apply looks_pure
  refine ⟨⟨hindex, hfound⟩, fun hq => ⟨not_not.mp hcompleted, ?_, ?_⟩⟩
  · exact ⟨choice, destinationRoot, sourceRoot, rootFd, source, hchoice, hdestinationRoot,
      hsourceRoot, hrelative, hsource, hdestination, hfree hq, hroot hq, hparent hq, hfolder hq⟩
  · obtain rfl := hsourceDevice hq
    obtain rfl := hdestinationDevice hq
    exact not_not.mp hdevice

end
end SortingHat
