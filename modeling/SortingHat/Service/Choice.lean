import SortingHat.Service.Alone
import SortingHat.Service.Stale

/-!
# Choosing a folder

A folder is chosen by its path. What is stored is a destination root and a directory
below it.

* `Registered`, `registered`: what the registered roots are, in every run;
* `Nearest`: the destination root that is closest to a folder;
* `Stored`, `choice_stored`: the two that are stored lead to the folder.
-/

namespace SortingHat
open Posix Effect Text FileSystem
open Journal (Row Database State)

/-- The ids of the roots are drawn and distinct, and their paths are canonical. -/
structure Registered (P : Platform) (n : Nat) (state : PersistentState) : Prop where
  drawn : ∀ root ∈ state.roots, ∃ k < n, root.id = P.uuid k
  distinct : (state.roots.map Root.id).Nodup
  canonical : ∀ root ∈ state.roots, Path.Canonical (bytes root.path)

/-- A folder that is asked to be enrolled is named from the root. -/
def FromRoot (_ : Machine) (event : Event) : Prop := Absolute event.call

/-- No registered destination that holds the folder is deeper than this one. -/
structure Nearest (state : PersistentState) (folder : Bytes) (root : Root) : Prop where
  registered : root ∈ state.roots
  destination : root.destination = true
  inside : Path.startsWith folder (bytes root.path) = true
  longest : ∀ other ∈ state.roots, other.destination = true →
    Path.startsWith folder (bytes other.path) = true →
      (Path.components (bytes other.path)).length ≤ (Path.components (bytes root.path)).length

section
variable {P : Platform} {fs : FileSystem} {m : Machine} {events : List Event}
  {state : PersistentState} {root : Root} {n : Nat}

/-! ## The registered roots -/

theorem Registered.mono {n' : Nat} (h : Registered P n state) (hle : n ≤ n') :
    Registered P n' state := by
  refine ⟨fun root hm => ?_, h.distinct, h.canonical⟩
  obtain ⟨k, hk, hid⟩ := h.drawn root hm
  exact ⟨k, Nat.lt_of_lt_of_le hk hle, hid⟩

/-- Ids that are drawn are drawn anew. -/
theorem Registered.fresh (h : Registered P n state) (hid : root.id = P.uuid n) :
    ∀ other ∈ state.roots, other.id ≠ root.id := by
  intro other ho he
  obtain ⟨k, hk, hk'⟩ := h.drawn other ho
  exact Nat.ne_of_lt hk (P.uuid_injective (hk'.symm.trans (he.trans hid)))

theorem Registered.enrol (h : Registered P n state) (hid : root.id = P.uuid n)
    (hpath : Path.Canonical (bytes root.path)) :
    Registered P (n + 1) { state with roots := state.roots ++ [root] } := by
  have hold := h.mono (Nat.le_succ n)
  constructor
  · intro other ho
    rcases List.mem_append.mp ho with ho | ho
    · exact hold.drawn other ho
    · exact ⟨n, Nat.lt_succ_self n, List.mem_singleton.mp ho ▸ hid⟩
  · rw [List.map_append, List.map_singleton]
    refine List.nodup_append.mpr ⟨h.distinct, List.nodup_singleton _, fun a ha b hb => ?_⟩
    obtain ⟨other, ho, rfl⟩ := List.mem_map.mp ha
    rw [List.mem_singleton.mp hb]
    exact h.fresh hid other ho
  · intro other ho
    rcases List.mem_append.mp ho with ho | ho
    · exact h.canonical other ho
    · exact List.mem_singleton.mp ho ▸ hpath

theorem Registered.edit {caller : Option Call} {s : Service} {w : World}
    (h : Registered P w.drawn s.state) (habs : Absolute caller) (he : Edit P caller s w state n) :
    Registered P n state := by
  have hle := he.drawn_le
  cases he with
  | set | ruled | proposed | revised | pruned =>
    exact ⟨(h.mono hle).drawn, h.distinct, h.canonical⟩
  | rooted hid _ _ _ _ hcanonical => exact h.enrol hid (hcanonical habs)
  | unrooted id =>
    have hsub : ∀ root ∈ s.state.roots.filter fun root => root.id ≠ id, root ∈ s.state.roots :=
      fun root hm => List.mem_of_mem_filter hm
    exact ⟨fun root hm => h.drawn root (hsub root hm),
      (List.filter_sublist.map Root.id).nodup h.distinct,
      fun root hm => h.canonical root (hsub root hm)⟩

/-- Every run keeps the roots in order, in memory and on disk. -/
theorem registered (h : RunWhere P FromRoot (Machine.initial fs) events m) :
    m.Holds (Registered P) := by
  apply h.holds (K := fun call _ => Absolute (some call))
  · intro w s event call habs hcall
    unfold FromRoot at habs
    rwa [hcall] at habs
  · exact fun n n' state hle h => h.mono hle
  · exact fun n => ⟨(fun _ hm => nomatch hm), List.nodup_nil, (fun _ hm => nomatch hm)⟩
  · intro caller s w state n hs hK he
    refine ⟨hs.edit ?_ he, hK⟩
    cases caller with
    | none => exact trivial
    | some call => exact hK call rfl

/-- Where ids are distinct, the root with an id is the only one that has it. -/
theorem findRoot_of_mem {test : Root → Bool} (hd : (state.roots.map Root.id).Nodup)
    (hm : root ∈ state.roots) (htest : test root = true) :
    state.findRoot root.id test = some root := by
  cases hfind : state.findRoot root.id test with
  | none =>
    have := List.find?_eq_none.mp hfind root hm
    simp [htest] at this
  | some other =>
    obtain ⟨ho, hid, -⟩ := findRoot_eq_some hfind
    rw [List.inj_on_of_nodup_map hd ho hm hid]

theorem Registered.findRoot (h : Registered P n state) (hm : root ∈ state.roots)
    (huse : root.destination = true) : state.findRoot root.id Root.destination = some root :=
  findRoot_of_mem h.distinct hm huse

/-! ## The nearest destination -/

theorem length_bytes (text : String) : (bytes text).length = text.utf8ByteSize := by
  simp [bytes]

/-- Of two paths that lead to one folder the one with more bytes has more components. -/
theorem components_le {folder p q : Bytes} (hf : Path.Canonical folder) (hp : Path.Canonical p)
    (hq : Path.Canonical q) (hpf : Path.startsWith folder p = true)
    (hqf : Path.startsWith folder q = true) (h : p.length ≤ q.length) :
    (Path.components p).length ≤ (Path.components q).length := by
  obtain ⟨ns, hns, rfl⟩ := hf
  obtain ⟨ps, hps, rfl⟩ := hp
  obtain ⟨qs, hqs, rfl⟩ := hq
  rw [Path.startsWith_absolute hns hps] at hpf
  rw [Path.startsWith_absolute hns hqs] at hqf
  rw [Path.components_absolute hps, Path.components_absolute hqs]
  simp only [List.length_cons, List.length_map]
  rcases List.prefix_or_prefix_of_prefix hpf hqf with hin | hin
  · exact Nat.succ_le_succ hin.length_le
  · by_cases hsame : qs = ps
    · rw [hsame]
    · exact absurd (Path.length_absolute_lt hps hin hsame) (Nat.not_lt.mpr h)

theorem mem_candidates {folder : Bytes} : root ∈ state.candidates folder ↔ root ∈ state.roots ∧
    root.destination = true ∧ Path.startsWith folder (bytes root.path) = true := by
  unfold PersistentState.candidates
  rw [List.mem_insertionSort, List.mem_filter, Bool.and_eq_true]

/-- The first candidate has the longest path. -/
theorem candidates_longest {folder : Bytes} {other : Root}
    (hhead : (state.candidates folder).head? = some root) (ho : other ∈ state.candidates folder) :
    other.path.utf8ByteSize ≤ root.path.utf8ByteSize := by
  unfold PersistentState.candidates at hhead ho
  let r : Root → Root → Prop := fun a b => b.path.utf8ByteSize ≤ a.path.utf8ByteSize
  have : Std.Total r := ⟨fun a b => Nat.le_total _ _⟩
  have : IsTrans Root r := ⟨fun a b c hab hbc => Nat.le_trans hbc hab⟩
  have hsorted := List.pairwise_insertionSort r
    (state.roots.filter fun root => root.destination && Path.startsWith folder (bytes root.path))
  obtain ⟨rest, hrest⟩ := List.head?_eq_some_iff.mp hhead
  rw [hrest] at ho hsorted
  rcases List.mem_cons.mp ho with rfl | ho
  · exact Nat.le_refl _
  · exact (List.pairwise_cons.mp hsorted).1 other ho

theorem nearest_of_candidates {folder : Bytes} (h : Registered P n state)
    (hf : Path.Canonical folder) (hhead : (state.candidates folder).head? = some root) :
    Nearest state folder root := by
  obtain ⟨hroot, huse, hinside⟩ := mem_candidates.mp (List.mem_of_mem_head? hhead)
  refine ⟨hroot, huse, hinside, fun other ho huse' hinside' => ?_⟩
  apply components_le hf (h.canonical other ho) (h.canonical root hroot) hinside' hinside
  rw [length_bytes, length_bytes]
  exact candidates_longest hhead (mem_candidates.mpr ⟨ho, huse', hinside'⟩)

/-- A folder that is enrolled for want of another is nearest to itself. -/
theorem nearest_of_enrolled {folder : Bytes} (hnone : (state.candidates folder).head? = none)
    (huse : root.destination = true) (hpath : bytes root.path = folder) :
    Nearest { state with roots := state.roots ++ [root] } folder root := by
  have hself : Path.startsWith folder (bytes root.path) = true := by
    rw [hpath]
    exact List.isPrefixOf_iff_prefix.mpr (List.prefix_refl _)
  refine ⟨List.mem_append_right _ (List.mem_singleton_self root), huse, hself, ?_⟩
  intro other ho huse' hinside
  rcases List.mem_append.mp ho with ho | ho
  · have houtside := candidates_nil hnone other ho huse'
    rw [hinside] at houtside
    cases houtside
  · rw [List.mem_singleton.mp ho]

end

/-! ## The request -/

/-- What is stored with a choice: in the proposal, and in its row. -/
structure Redirected (s s' : Service) (w w' : World) (id rootId : Uuid) (directory : String)
    (p : Proposal) : Prop where
  roots : s'.state.roots = s.state.roots
  fs : w'.fs = w.fs
  listed : p ∈ s'.state.proposals
  same : p.id = id
  destination : p.destination = some ⟨rootId, directory⟩
  valid : validateRelativeDirectory directory = .ok ()
  row : ∃ root relative name row, s.state.findRoot rootId Root.destination = some root ∧
    DirectoryAt w.fs (Path.join (bytes root.path) (bytes directory)) ∧
    decodeRelative p.sourceRelative = .ok relative ∧ Path.fileName relative = some name ∧
    w'.db.find id = some row ∧ row.revision = (p.revision : Int) ∧
    row.destinationToken = Path.join (Path.join (bytes root.path) (bytes directory)) name

section
variable {P : Platform} {A : Tick → Prop} {α β : Type} {s : Service} {w w₀ : World}

theorem chooseDestination_wp {id rootId : Uuid} {revision : Nat} {directory : String}
    (hA : Quiet A) :
    wpS A (chooseDestination id revision rootId directory)
      (fun p s' w' => Redirected s s' w w' id rootId directory p) (fun _ _ _ => True)
      (fun _ => True) s w := by
  unfold chooseDestination
  apply wpS_looks (.refl w) looks_check
  intro _ w₁ hu hdirectory
  apply wpS_looks hu looks_get
  rintro _ w₁ hu rfl
  apply wpS_looks hu looks_orFail
  intro root w₁ hu hroot
  apply wpS_looks hu looks_requireDirectory
  intro _ w₁ hu hfolder
  apply wpS_looks hu looks_check
  intro index w₁ hu hindex
  apply wpS_looks hu looks_proposalAt
  intro proposal w₁ hu hp
  apply wpS_looks hu looks_check
  intro relative w₁ hu hrelative
  apply wpS_looks hu looks_orFail
  intro name w₁ hu hname
  apply wpS_looks hu looks_check
  intro sourcePath w₁ hu _
  apply wpS_looks hu looks_moveWarning
  intro warning w₁ hu _
  obtain ⟨found, hfound, hid, hrevision⟩ := proposalIndex_eq_ok hindex
  obtain rfl := Option.some.inj (hfound.symm.trans hp)
  refine (wpS_bind _ _).mpr ((wpS_embed _ _).mpr ((wpE_inPart _ _).mpr ?_))
  apply Journal.reviseProposal_wp trivial (fun _ => trivial)
  intro row t _ hfind _ _
  refine ⟨trivial, fun _ => trivial, fun entry hreads => ?_⟩
  refine (wpS_bind _ _).mpr (wpS_modifyState.mpr ?_)
  refine (wpS_bind _ _).mpr ?_
  unfold proposalAt
  rw [wpS_bind, wpS_getState, wpS_orFail]
  refine ⟨fun _ => trivial, fun p hp' => ?_⟩
  have hmodified := mem_modify_self (f := fun p : Proposal =>
    { p with
      revision := entry.revision
      destination := some ⟨rootId, directory⟩
      destinationName := (Path.fileName (Path.join (Path.join (bytes root.path) (bytes directory))
        name)).bind FileName.ofLossy
      destinationDisplay :=
        some (displayPath (Path.join (Path.join (bytes root.path) (bytes directory)) name))
      warning }) hfound
  simp only [List.getElem?_modify, if_true, hfound, Option.map_eq_map, Option.map_some,
    Option.some.injEq] at hp'
  subst hp'
  refine (wpS_bind _ _).mpr (wpS_mono save_wp ?_ (fun _ _ _ _ => trivial) fun _ _ => trivial)
  rintro _ s' w' ⟨rfl, hsaved⟩
  have hdb := hsaved.db
  have hfs := hsaved.fs hA
  rw [wpS_pure]
  refine ⟨rfl, hfs.trans (hu.fs hA), hmodified, hid, rfl, Except.ok_of_mapError hdirectory, ?_⟩
  · refine ⟨root, relative, name, _, hroot, hfolder hA, hrelative, hname, ?_, hreads.revision.symm,
      rfl⟩
    obtain ⟨hm, hrow⟩ := Database.find_eq_some.mp hfind
    rw [hdb]
    exact hrow ▸ @Database.find_replace _ (row.redirected _ t.seconds) (hrow ▸ hfind ▸ rfl)

theorem addRoot_wp {path : Bytes} {watched destination : Bool} (hA : Quiet A) :
    wpS A (addRoot P path watched destination)
      (fun root s' w' => s'.state = { s.state with roots := s.state.roots ++ [root] } ∧
        root.destination = destination ∧ root.id = P.uuid w.drawn ∧ w'.drawn = w.drawn + 1 ∧
        w'.fs = w.fs ∧ DirectoryAt w.fs path ∧ w.fs.canonicalize path = .ok (bytes root.path))
      (fun _ _ _ => True) (fun _ => True) s w := by
  unfold addRoot
  apply wpS_looks (.refl w) looks_get
  rintro _ w₁ hu rfl
  apply wpS_looks hu looks_failIf
  intro _ w₁ hu _
  apply wpS_looks hu looks_requireDirectory
  intro _ w₁ hu hdirectory
  apply wpS_looks hu looks_look
  intro canonical w₁ hu hcanonical
  apply wpS_looks hu looks_orFail
  intro display w₁ hu hdisplay
  apply wpS_looks hu looks_failIf
  intro _ w₁ hu _
  apply wpS_looks hu looks_openRoot
  intro _ w₁ hu _
  refine (wpS_bind _ _).mpr (draw_wp trivial ?_)
  rw [wpS_bind, wpS_modifyState, wpS_bind]
  refine wpS_mono save_wp ?_ (fun _ _ _ _ => trivial) fun _ _ => trivial
  rintro _ s' w' ⟨rfl, hsaved⟩
  have hdrawn : w'.drawn = w.drawn + 1 := by
    rw [hsaved.drawn]
    exact congrArg (· + 1) hu.drawn
  have hid : P.uuid w₁.drawn = P.uuid w.drawn := by rw [hu.drawn]
  have hfs : w'.fs = w.fs := (hsaved.fs hA).trans (hu.fs hA)
  rw [wpS_pure]
  exact ⟨rfl, rfl, hid, hdrawn, hfs, hdirectory hA, (hcanonical hA).trans
    (congrArg _ (bytes_of_toStr hdisplay).symm)⟩

end

/-! ## What is stored -/

/-- The destination of a proposal is the folder, open as `fd`: its root is the nearest
one, the directory is a safe one, and both lead to the folder. So does the destination
token of the row. -/
structure Stored (state : PersistentState) (db : Database) (fs : FileSystem) (folder : Bytes)
    (fd : Fd) (p : Proposal) (root : Root) (directory : String) : Prop where
  listed : p ∈ state.proposals
  destination : p.destination = some ⟨root.id, directory⟩
  found : state.findRoot root.id Root.destination = some root
  nearest : Nearest state folder root
  valid : validateRelativeDirectory directory = .ok ()
  resolves : fs.canonicalize (Path.join (bytes root.path) (bytes directory)) = .ok folder
  opens : fs.openDirectory (Path.join (bytes root.path) (bytes directory)) = .ok fd
  token : ∃ relative name row, decodeRelative p.sourceRelative = .ok relative ∧
    Path.fileName relative = some name ∧ db.find p.id = some row ∧
    row.revision = (p.revision : Int) ∧
    row.destinationToken = Path.join (Path.join (bytes root.path) (bytes directory)) name ∧
    fs.slotOf row.destinationToken = some ⟨fs.ino fd, name⟩

section
variable {P : Platform} {A : Tick → Prop} {fs : FileSystem} {fd : Fd} {s : Service} {w : World}
  {n : Nat} {root : Root} {id : Uuid} {revision : Nat}

theorem DirectoryAt.admissible {path : Bytes} (h : DirectoryAt fs path) :
    FileSystem.admissible path = .ok () := by
  obtain ⟨i, inode, hstat, -⟩ := h
  unfold FileSystem.stat resolve at hstat
  cases ha : FileSystem.admissible path with
  | error e =>
    rw [ha] at hstat
    cases hstat
  | ok u => rfl

/-- A directory is there by its own name, so what the path resolves to is one. -/
theorem DirectoryAt.isDirectory {path : Bytes} (h : DirectoryAt fs path)
    (hfd : fs.resolve true path = .ok fd) : fs.isDirectory (fs.ino fd) = true := by
  obtain ⟨i, inode, hstat, hentries⟩ := h
  unfold FileSystem.stat at hstat
  cases hr : fs.resolve false path with
  | error e =>
    rw [hr] at hstat
    cases hstat
  | ok fd' =>
    rw [hr] at hstat
    simp only [bind, Except.bind] at hstat
    split at hstat
    · next found hfound =>
      cases hstat
      have hnode : fs.entries? (fs.ino fd') = inode.node.entries? := by
        simp [entries?, node?, hfound]
      obtain ⟨held, hheld⟩ := Option.isSome_iff_exists.mp hentries
      have hfollow := resolve_follow hr (target?_of_entries (hnode.trans hheld))
      obtain rfl := Except.ok.inj (hfd.symm.trans hfollow)
      exact (congrArg Option.isSome hnode).trans hentries
    · cases hstat

/-- The directory that is left of a folder below a root. -/
theorem bytes_directory {more : List Bytes} {directory : String}
    (h : Path.below more = [] ∧ directory = "." ∨ toStr (Path.below more) = some directory)
    (hmore : ∀ n ∈ more, Path.isName n = true) :
    Path.isAbsolute (bytes directory) = false ∧ Path.names (bytes directory) = more := by
  rcases h with ⟨hempty, rfl⟩ | h
  · have hnil : more = [] := by
      rw [← Path.names_below hmore, hempty]
      rfl
    rw [hnil]
    exact ⟨rfl, rfl⟩
  · rw [bytes_of_toStr h]
    exact ⟨Path.isAbsolute_below hmore, Path.names_below hmore⟩

/-- What is redirected to the rest of a folder below the nearest root is stored. -/
theorem Redirected.stored {s' : Service} {w' : World} {p : Proposal} {directory : String}
    {ms more : List Bytes} (h : Redirected s s' w w' id root.id directory p)
    (hroots : Registered P n s.state) (hrooted : w.fs.Rooted fd)
    (hdir : w.fs.isDirectory (w.fs.ino fd) = true)
    (hnearest : Nearest s.state (Path.absolute (way fd)) root)
    (hroot : bytes root.path = Path.absolute ms) (hway : way fd = ms ++ more)
    (hdirectory : Path.below more = [] ∧ directory = "." ∨
      toStr (Path.below more) = some directory) :
    p.id = id ∧
      Stored s'.state w'.db w'.fs (Path.absolute (way fd)) fd p root directory := by
  have hnames := hrooted.isName
  rw [hway] at hnames
  obtain ⟨habs, hrest⟩ :=
    bytes_directory hdirectory fun n hn => hnames n (List.mem_append_right ms hn)
  have hfind := hroots.findRoot hnearest.registered hnearest.destination
  obtain ⟨found, relative, name, row, hfound, hat, hrelative, hname, hrow, hrevision, htoken⟩ := h.row
  obtain rfl := Option.some.inj (hfind.symm.trans hfound)
  -- the stored path goes down the way of the folder
  have hjoin : Path.names (Path.join (bytes root.path) (bytes directory)) = way fd := by
    rw [Path.names_join habs, hrest, hroot,
      Path.names_absolute fun n hn => hnames n (List.mem_append_left more hn), hway]
  have hisabs : Path.isAbsolute (Path.join (bytes root.path) (bytes directory)) = true := by
    rw [Path.isAbsolute_join habs, hroot, Path.isAbsolute_absolute]
  obtain ⟨hresolves, hopens⟩ := hrooted.spelled hisabs hjoin hdir hat.admissible
  obtain ⟨⟨rest, hplain⟩, hd, hslash, hstay⟩ := plain_of_fileName hname
  have hisname : Path.isName name = true := by
    refine Path.isName_iff.mpr ⟨?_, ?_, hd, hslash⟩
    · rintro rfl
      cases hstay
    · rintro rfl
      cases hstay
  have hrel := Path.isAbsolute_name hisname
  have hself : Path.names name = [name] := by
    have := Path.names_below (List.forall_mem_singleton.mpr hisname)
    rwa [Path.below_singleton] at this
  have hslot := (leads_of_openDirectory hopens).slotOf (Path.isAbsolute_join hrel)
    (by rw [Path.names_join hrel, hself]) hd
  refine ⟨h.same, h.listed, h.destination, ?_, ?_, h.valid, ?_, ?_, ?_⟩
  · unfold PersistentState.findRoot
    rw [h.roots]
    exact hfind
  · exact ⟨h.roots ▸ hnearest.registered, hnearest.destination, hnearest.inside,
      h.roots ▸ hnearest.longest⟩
  · rw [h.fs]
    exact hresolves
  · rw [h.fs]
    exact hopens
  · refine ⟨relative, name, row, hrelative, hname, h.same.symm ▸ hrow, hrevision, htoken, ?_⟩
    rw [h.fs, htoken]
    exact hslot.1

/-- The root that is taken: the nearest one, or the folder itself, enrolled. -/
theorem nearest_wp {w₀ : World} (hA : Quiet A) (hu : Untouched A w₀ w)
    (hroots : Registered P w₀.drawn s.state) (hrooted : w₀.fs.Rooted fd)
    (hdir : w₀.fs.isDirectory (w₀.fs.ino fd) = true) :
    wpS A (match (s.state.candidates (Path.absolute (way fd))).head? with
        | some root => pure root
        | none => addRoot P (Path.absolute (way fd)) false true)
      (fun root s' w' => Registered P w'.drawn s'.state ∧
        Nearest s'.state (Path.absolute (way fd)) root ∧ w'.fs = w₀.fs)
      (fun _ _ _ => True) (fun _ => True) s w := by
  have hfs := hu.fs hA
  have hroots : Registered P w.drawn s.state := by rwa [hu.drawn]
  split
  · next root hhead =>
    exact (wpS_pure _).mpr ⟨hroots, nearest_of_candidates hroots ⟨_, hrooted.isName, rfl⟩ hhead, hfs⟩
  · next hnone =>
    refine wpS_mono (addRoot_wp hA) ?_ (fun _ _ _ _ => trivial) fun _ _ => trivial
    rintro root s' w' ⟨hstate, huse, hid, hdrawn, hfs', hat, hcanonical⟩
    rw [hfs] at hat hcanonical
    have hself := Path.names_absolute hrooted.isName
    have hagain := (hrooted.spelled Path.isAbsolute_absolute hself hdir hat.admissible).1
    have hpath : bytes root.path = Path.absolute (way fd) :=
      Except.ok.inj (hcanonical.symm.trans hagain)
    rw [hstate, hdrawn]
    exact ⟨hroots.enrol hid ⟨_, hrooted.isName, hpath⟩, nearest_of_enrolled hnone huse hpath,
      hfs'.trans hfs⟩

theorem chooseDestinationPath_wp {folder : Bytes} (hA : Quiet A)
    (hroots : Registered P w.drawn s.state) (habs : Path.isAbsolute folder = true) :
    wpS A (chooseDestinationPath P id revision folder)
      (fun p s' w' => p.id = id ∧ ∃ canonical fd root directory,
        w.fs.canonicalize folder = .ok canonical ∧ w.fs.openDirectory folder = .ok fd ∧
        w'.fs = w.fs ∧ Stored s'.state w'.db w.fs canonical fd p root directory)
      (fun _ _ _ => True) (fun _ => True) s w := by
  unfold chooseDestinationPath
  apply wpS_looks (.refl w) looks_requireDirectory
  intro _ w₁ hu hfolder
  apply wpS_looks hu looks_look
  intro canonical w₁ hu hcanonical
  apply wpS_looks hu looks_get
  rintro _ w₁ hu rfl
  have hcanonical := hcanonical hA
  obtain ⟨fd, hfd, hrooted, rfl⟩ := canonicalize_ok habs hcanonical
  have hdir := (hfolder hA).isDirectory hfd
  have hopen : w.fs.openDirectory folder = .ok fd := by
    unfold FileSystem.openDirectory
    rw [hfd]
    simp only [bind, Except.bind, hdir, if_true]
  refine (wpS_bind _ _).mpr (wpS_mono (nearest_wp hA hu hroots hrooted hdir) ?_
    (fun _ _ _ _ => trivial) fun _ _ => trivial)
  rintro root s₁ w₂ ⟨hroots₁, hnearest, hfs⟩
  obtain ⟨ms, hms, hroot⟩ := hroots₁.canonical root hnearest.registered
  have hinside := hnearest.inside
  rw [hroot, Path.startsWith_absolute hrooted.isName hms] at hinside
  obtain ⟨more, hway⟩ := hinside
  have hstrip : Path.stripPrefix (Path.absolute (way fd)) (bytes root.path) =
      some (Path.below more) := by
    rw [hroot, ← hway]
    exact Path.stripPrefix_absolute (hway ▸ hrooted.isName)
  apply wpS_looks (.refl w₂) looks_orFail
  intro relative w₃ hu hrelative
  obtain rfl := Option.some.inj (hstrip.symm.trans hrelative)
  apply wpS_looks (R := fun directory => Path.below more = [] ∧ directory = "." ∨
    toStr (Path.below more) = some directory) hu
  · split
    · next hempty => exact looks_pure (.inl ⟨hempty, rfl⟩)
    · exact looks_orFail.mono fun _ h => .inr h
  intro directory w₄ hu hdirectory
  refine wpS_mono (chooseDestination_wp hA) ?_ (fun _ _ _ _ => trivial) fun _ _ => trivial
  intro p s' w' h
  have hfs₄ : w₄.fs = w.fs := (hu.fs hA).trans hfs
  have hroots₄ : Registered P w₄.drawn s₁.state := by rwa [hu.drawn]
  obtain ⟨hid, hstored⟩ := h.stored hroots₄ (hfs₄ ▸ hrooted) (hfs₄ ▸ hdir) hnearest hroot hway.symm
    hdirectory
  have hfs' := h.fs.trans hfs₄
  rw [hfs'] at hstored
  exact ⟨hid, _, fd, root, directory, hcanonical, hopen, hfs', hstored⟩

/-- **A chosen folder is stored.** -/
theorem choice_stored {folder : Bytes} {ticks : List Tick} {p : Proposal} {s' : Service}
    {w' : World} (hroots : Registered P w.drawn s.state)
    (habs : Path.isAbsolute folder = true) (hticks : ∀ t ∈ ticks, t.Alone)
    (h : ((chooseDestinationPath P id revision folder).start s).after ticks w =
      (.done (.ok p, s'), w')) :
    p.id = id ∧ ∃ canonical fd root directory,
      w.fs.canonicalize folder = .ok canonical ∧ w.fs.openDirectory folder = .ok fd ∧
      w'.fs = w.fs ∧ Stored s'.state w'.db w.fs canonical fd p root directory := by
  have hwp : wpS Tick.Alone (chooseDestinationPath P id revision folder) _ _ _ s w :=
    chooseDestinationPath_wp (fun _ ht => ht) hroots habs
  have := Prog.wp_after hwp ticks hticks
  rwa [h] at this

end

/-- The proposal of `/w/a`, where `/` and `/d` are both destinations. -/
def nestedChoice : Service where
  state := { sampleState [sampleProposal 2 .proposed] with
    roots := [⟨⟨0⟩, "/w", true, false⟩, ⟨⟨1⟩, "/", false, true⟩, ⟨⟨3⟩, "/d", false, true⟩] }
  stability _ := .default

def nestedWorld : World :=
  { sampleWorld sampleFiles (sampleRow 2 .proposed) nestedChoice.state with drawn := 4 }

theorem nestedChoice_registered : Registered .sample nestedWorld.drawn nestedChoice.state where
  drawn root hm := ⟨root.id.1, by
    revert root
    decide, rfl⟩
  distinct := by decide
  canonical := by
    intro root hm
    simp only [nestedChoice, List.mem_cons, List.not_mem_nil, or_false] at hm
    rcases hm with rfl | rfl | rfl
    · exact ⟨[bytes "w"], by decide, by decide⟩
    · exact ⟨[], by decide, by decide⟩
    · exact ⟨[bytes "d"], by decide, by decide⟩

/-- The folder `/d` lies in both, and is stored as `.` below the deeper one. -/
theorem choice_stored_nested : ∃ p s' w',
    ((chooseDestinationPath .sample ⟨2⟩ 2 (bytes "/d")).start nestedChoice).after (quietAt 1)
      nestedWorld = (.done (.ok p, s'), w') ∧ p.destination = some ⟨⟨3⟩, "."⟩ ∧
    p.id = ⟨2⟩ ∧ ∃ canonical fd root directory,
      sampleFiles.canonicalize (bytes "/d") = .ok canonical ∧
      sampleFiles.openDirectory (bytes "/d") = .ok fd ∧ w'.fs = sampleFiles ∧
      Stored s'.state w'.db sampleFiles canonical fd p root directory := by
  have hanswer : (((chooseDestinationPath .sample ⟨2⟩ 2 (bytes "/d")).start nestedChoice).after
      (quietAt 1) nestedWorld).1.result?.any (fun r => r.1.toOption.any fun p =>
        decide (p.destination = some ⟨⟨3⟩, "."⟩)) = true := by decide +kernel
  generalize hafter : ((chooseDestinationPath .sample ⟨2⟩ 2 (bytes "/d")).start
    nestedChoice).after (quietAt 1) nestedWorld = answer at hanswer ⊢
  obtain ⟨p, s', hreturned, htest⟩ := exists_returned
    (fun (p : Proposal) (_ : Service) => decide (p.destination = some ⟨⟨3⟩, "."⟩)) hanswer
  have hreturned : answer = (.done (.ok p, s'), answer.2) := Prod.ext hreturned rfl
  exact ⟨p, s', _, hreturned, of_decide_eq_true htest,
    choice_stored nestedChoice_registered (by decide) quietAt_alone (hafter.trans hreturned)⟩

end SortingHat
