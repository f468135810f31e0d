import SortingHat.Service.Opening
import SortingHat.Posix.Walk

/-!
# From where to where

The path a move takes a file from and the path it takes it to, and that what the
move has opened are the directories these paths lead to.
-/

namespace SortingHat
open Posix Effect Text FileSystem

/-- The source path of a proposal and its destination path, by way of roots that
satisfy `watched` and `destination`. -/
def PersistentState.route (state : PersistentState) (id : Uuid) (watched destination : Root → Bool) :
    Option (Bytes × Bytes) := do
  let p ← state.findProposal id
  let choice ← p.destination
  let sourceRoot ← state.findRoot p.sourceRootId watched
  let destinationRoot ← state.findRoot choice.rootId destination
  let relative ← (decodeRelative p.sourceRelative).toOption
  let name ← destinationBasename p relative
  return (Path.join (bytes sourceRoot.path) relative,
    Path.join (Path.join (bytes destinationRoot.path) (bytes choice.directory)) name)

/-- Where a request takes a file from, and where to. -/
def Call.route (state : PersistentState) : Call → Option (Bytes × Bytes)
  | .approve id _ => state.route id Root.watched Root.destination
  | .undo id _ => (state.route id (fun _ => true) fun _ => true).map Prod.swap
  | _ => none

/-- The slot of a name in an open directory that a path names. -/
structure Entered (fs : FileSystem) (path : Bytes) (fd : Fd) (name : Bytes) : Prop where
  slot : fs.slotOf path = some ⟨fs.ino fd, name⟩
  directory : fs.isDirectory (fs.ino fd) = true
  fileName : Path.fileName path = some name
  no_slash : Path.slash ∉ name
  moves : Path.isStay name = false
  /-- What the path's parent lists. -/
  listing : ∀ parent entries, Path.parent path = some parent → fs.readDir parent = .ok entries →
    fs.entries? (fs.ino fd) = some entries

section
variable {P : Platform} {fs : FileSystem} {fd rootFd : Fd} {rootPath relative name : Bytes}

theorem relative_of_decode {text : String} (h : decodeRelative text = .ok relative) :
    Path.isAbsolute relative = false := by
  unfold decodeRelative at h
  split at h
  · cases h
  · next path _ =>
    split at h
    · cases h
    · next hv =>
      obtain rfl := Except.ok.inj h
      unfold validateRelative at hv
      split at hv
      · cases hv
      · next hshape =>
        simp only [not_or] at hshape
        exact Bool.eq_false_iff.mpr hshape.2.2

/-- A decoded path ends in a name. -/
theorem fileName_of_decode {text : String} (h : decodeRelative text = .ok relative) :
    ∃ name, Path.fileName relative = some name := by
  have habs := relative_of_decode h
  obtain ⟨hne, hnormal⟩ : relative ≠ [] ∧ ∀ c ∈ Path.components relative, ∃ name, c = .normal name := by
    unfold decodeRelative at h
    split at h
    · cases h
    · next path _ =>
      split at h
      · cases h
      · next hv =>
        obtain rfl := Except.ok.inj h
        unfold validateRelative at hv
        split at hv
        · cases hv
        · next hshape =>
          split at hv
          · next hall =>
            refine ⟨fun he => hshape (.inl he), fun c hc => ?_⟩
            have := List.all_eq_true.mp hall c hc
            cases c <;> first | exact ⟨_, rfl⟩ | cases this
          · cases hv
  rw [Path.components_eq] at hnormal
  have hlead : Path.lead relative = [] := by
    rcases Path.lead_cases relative with ⟨-, h⟩ | ⟨hl | hl, -⟩
    · rw [h] at habs
      cases habs
    · obtain ⟨name, hc⟩ := hnormal .curDir (by rw [hl]; exact List.mem_append_left _ List.mem_cons_self)
      cases hc
    · exact hl
  rcases List.eq_nil_or_concat (Path.names relative) with hnames | ⟨rest, last, hnames⟩
  · -- the first segment moves: the path neither starts with a slash nor with a dot
    exfalso
    cases hsegs : Path.segments relative with
    | nil => exact List.splitOn_ne_nil _ _ hsegs
    | cons seg segs =>
      have hstay : Path.isStay seg = true := by
        have := List.filter_eq_nil_iff.mp hnames seg (hsegs ▸ List.mem_cons_self)
        simpa using this
      rcases Bool.or_eq_true_iff.mp hstay with hempty | hdot
      · obtain rfl : seg = [] := by simpa using hempty
        cases segs with
        | nil =>
          have hjoined : List.intercalate [Path.slash] (Path.segments relative) = relative :=
            List.intercalate_splitOn Path.slash
          rw [hsegs] at hjoined
          exact hne hjoined.symm
        | cons next segs =>
          rw [Path.isAbsolute_iff.mpr ⟨next, segs, hsegs⟩] at habs
          cases habs
      · obtain rfl : seg = Path.dot := by simpa using hdot
        unfold Path.lead at hlead
        rw [habs, hsegs] at hlead
        cases hlead
  · rw [List.concat_eq_append] at hnames
    refine ⟨last, Path.fileName_of_names hnames fun hd => ?_⟩
    have hmem : Path.component last ∈ Path.lead relative ++ (Path.names relative).map Path.component := by
      rw [hnames]
      simp
    obtain ⟨name, hc⟩ := hnormal _ hmem
    rw [hd] at hc
    cases hc

/-- A file name is a plain name. -/
theorem plain_of_fileName {path : Bytes} (h : Path.fileName path = some name) :
    (∃ rest, Path.names path = rest ++ [name]) ∧ name ≠ Path.dotDot ∧ Path.slash ∉ name ∧
      Path.isStay name = false := by
  obtain ⟨rest, hrest, hd⟩ := Path.fileName_names h
  have hmem : name ∈ Path.names path := by
    rw [hrest]
    exact List.mem_append_right _ (List.mem_singleton_self name)
  exact ⟨⟨rest, hrest⟩, hd, Path.not_mem_names hmem⟩

/-- The parent that has been opened, and the name in it. -/
theorem ParentOpened.entered (h : ParentOpened fs rootFd rootPath relative fd)
    (hroot : fs.openDirectory rootPath = .ok rootFd) (hrelative : Path.isAbsolute relative = false)
    (hname : Path.fileName relative = some name) :
    Entered fs (Path.join rootPath relative) fd name := by
  obtain ⟨⟨rest, hrest⟩, hd, hslash, hstay⟩ := plain_of_fileName hname
  have hnames : Path.names (Path.join rootPath relative) = Path.names rootPath ++ rest ++ [name] := by
    rw [Path.names_join hrelative, hrest, List.append_assoc]
  have habs := @Path.isAbsolute_join rootPath relative hrelative
  have hlead := leads_of_openDirectory hroot
  obtain ⟨parent, hparent⟩ := Path.exists_parent hname
  have hparentNames := Path.names_parent hparent
  rw [hrest, List.dropLast_concat] at hparentNames
  -- the directory that holds the name, and what leads there
  obtain ⟨dir, hdir, hdirAbs, hdirNames⟩ : ∃ dir, Leads fs dir fd ∧
      Path.isAbsolute dir = Path.isAbsolute rootPath ∧
      Path.names dir = Path.names rootPath ++ rest := by
    unfold ParentOpened at h
    rw [hparent] at h
    by_cases hempty : parent = []
    · subst hempty
      have hopen : fs.openDirectory rootPath = .ok fd := h
      refine ⟨rootPath, leads_of_openDirectory hopen, rfl, ?_⟩
      rw [← hparentNames, Path.names_nil, List.append_nil]
    · rw [Option.filter_some_pos (by simpa using hempty)] at h
      obtain ⟨hparentAbs, hb, hdir⟩ := beneath_of_openBeneath h
      refine ⟨Path.join rootPath parent, hlead.join hparentAbs hb (hdir rfl),
        Path.isAbsolute_join hparentAbs, ?_⟩
      rw [Path.names_join hparentAbs, hparentNames]
  have hpath : Path.names (Path.join rootPath relative) = Path.names dir ++ [name] := by
    rw [hnames, hdirNames]
  obtain ⟨hslot, hlisting⟩ := hdir.slotOf (habs.trans hdirAbs.symm) hpath hd
  exact
    { slot := hslot
      directory := hdir.directory
      fileName := Path.fileName_of_names hpath hd
      no_slash := hslash
      moves := hstay
      listing := hlisting }

/-- A path of one normal component. -/
theorem names_of_single (h : Path.components name = [.normal relative]) :
    Path.isAbsolute name = false ∧ Path.names name = [relative] ∧ relative ≠ Path.dotDot := by
  rw [Path.components_eq] at h
  rcases Path.lead_cases name with ⟨hl, -⟩ | ⟨hl | hl, habs⟩ <;> rw [hl] at h
  · cases h
  · cases h
  · rw [List.nil_append] at h
    obtain ⟨seg, hnames, hseg⟩ := List.map_eq_singleton_iff.mp h
    unfold Path.component at hseg
    split at hseg
    · cases hseg
    · next hd =>
      obtain rfl := Path.Component.normal.inj hseg
      exact ⟨habs, hnames, hd⟩

/-- A name with no slash is its own only segment. -/
theorem names_of_plain (hslash : Path.slash ∉ name) (hstay : Path.isStay name = false) :
    Path.isAbsolute name = false ∧ Path.names name = [name] := by
  have hsegs : Path.segments name = [name] := List.splitOn_eq_singleton hslash
  constructor
  · rw [Bool.eq_false_iff, Ne, Path.isAbsolute_iff, hsegs]
    rintro ⟨seg, rest, h⟩
    cases h
  · rw [Path.names, hsegs, List.filter_cons_of_pos (by simp [hstay]), List.filter_nil]

/-- The name a destination ends in. -/
theorem names_basename {p : Proposal} {basename : Bytes} (h : destinationBasename p relative = some basename) :
    Path.isAbsolute basename = false ∧ ∃ name, Path.names basename = [name] ∧ name ≠ Path.dotDot := by
  unfold destinationBasename at h
  cases hp : p.destinationName with
  | none =>
    rw [hp] at h
    obtain ⟨-, hd, hslash, hstay⟩ := plain_of_fileName h
    obtain ⟨habs, hnames⟩ := names_of_plain hslash hstay
    exact ⟨habs, basename, hnames, hd⟩
  | some file =>
    rw [hp] at h
    obtain rfl := Option.some.inj h
    obtain ⟨habs, hnames, hd⟩ := names_of_single file.single
    exact ⟨habs, file.name, hnames, hd⟩

/-- The path of a folder leads to what `openFolder` opens. -/
theorem FolderOpened.leads {directory : String} (h : FolderOpened fs rootPath directory fd) :
    Leads fs (Path.join rootPath (bytes directory)) fd ∧ Path.isAbsolute (bytes directory) = false := by
  unfold FolderOpened at h
  by_cases hdot : directory = "."
  · rw [if_pos hdot] at h
    subst hdot
    have hlead := leads_of_openDirectory h
    refine ⟨@Leads.join _ _ _ _ _ false hlead (by decide) ?_ hlead.directory, by decide⟩
    obtain ⟨entries, hentries⟩ := Option.isSome_iff_exists.mp hlead.directory
    have hsegs : Path.segments (bytes ".") = [Path.dot] := by decide
    rw [hsegs]
    unfold beneath
    rw [hentries]
    rfl
  · rw [if_neg hdot] at h
    obtain ⟨rootFd, hroot, hopen⟩ := h
    obtain ⟨habs, hb, hdir⟩ := beneath_of_openBeneath hopen
    exact ⟨(leads_of_openDirectory hroot).join habs hb (hdir rfl), habs⟩

/-- The folder that has been opened, and the name a destination in it ends in. -/
theorem FolderOpened.entered {directory : String} {p : Proposal} {basename : Bytes}
    (h : FolderOpened fs rootPath directory fd) (hb : destinationBasename p relative = some basename) :
    ∃ name, Path.names basename = [name] ∧
      Entered fs (Path.join (Path.join rootPath (bytes directory)) basename) fd name := by
  obtain ⟨habs, name, hnames, hd⟩ := names_basename hb
  obtain ⟨hlead, -⟩ := h.leads
  have hpath : Path.names (Path.join (Path.join rootPath (bytes directory)) basename) =
      Path.names (Path.join rootPath (bytes directory)) ++ [name] := by
    rw [Path.names_join habs, hnames]
  have hfile := Path.fileName_of_names hpath hd
  obtain ⟨-, -, hslash, hstay⟩ := plain_of_fileName hfile
  obtain ⟨hslot, hlisting⟩ := hlead.slotOf (Path.isAbsolute_join habs) hpath hd
  refine ⟨name, hnames, ?_⟩
  exact
    { slot := hslot
      directory := hlead.directory
      fileName := hfile
      no_slash := hslash
      moves := hstay
      listing := hlisting }

/-- The file opened below a root is what its parent's entry names. -/
theorem ParentOpened.verified {verifiedFd : Fd} (h : ParentOpened fs rootFd rootPath relative fd)
    (hroot : fs.openDirectory rootPath = .ok rootFd) (hname : Path.fileName relative = some name)
    (hopen : fs.openBeneath rootFd relative false true = .ok verifiedFd) :
    fs.linkAt? ⟨fs.ino fd, name⟩ = some (fs.ino verifiedFd) := by
  obtain ⟨⟨rest, hrest⟩, -, -, hstay⟩ := plain_of_fileName hname
  obtain ⟨-, hb, -⟩ := beneath_of_openBeneath hopen
  have hnames : fs.beneath true rootFd (rest ++ [name]) = .ok verifiedFd := hrest ▸ beneath_filter hb
  obtain ⟨fd₁, hfd₁, -, hentry, -⟩ := beneath_snoc hstay hnames
  obtain ⟨parent, hparent⟩ := Path.exists_parent hname
  have hparentNames := Path.names_parent hparent
  rw [hrest, List.dropLast_concat] at hparentNames
  obtain rfl : fd₁ = fd := by
    unfold ParentOpened at h
    rw [hparent] at h
    by_cases hempty : parent = []
    · subst hempty
      have hfd : fs.openDirectory rootPath = .ok fd := h
      rw [← hparentNames, Path.names_nil, beneath] at hfd₁
      exact Except.ok.inj (hfd₁.symm.trans (hroot.symm.trans hfd))
    · rw [Option.filter_some_pos (by simpa using hempty)] at h
      obtain ⟨-, hbeneath, -⟩ := beneath_of_openBeneath h
      have := beneath_filter hbeneath
      change fs.beneath true rootFd (Path.names parent) = .ok fd at this
      rw [hparentNames] at this
      exact Except.ok.inj (hfd₁.symm.trans this)
  exact hentry

/-! ## Courses -/

/-- The entry a move takes and the entry it makes of it. -/
structure Course where
  source : Slot
  target : Slot
  deriving DecidableEq, Repr

/-- The course of a request, as the files are. -/
def Call.course (state : PersistentState) (fs : FileSystem) (call : Call) : Option Course := do
  let (source, target) ← call.route state
  let source ← fs.slotOf source
  let target ← fs.slotOf target
  return ⟨source, target⟩

/-- The open directories a course runs between, and the names in them. -/
structure Plotted (P : Platform) (fs : FileSystem) (c : Course) (sourceFd targetFd : Fd)
    (sourceName targetName : Bytes) : Prop where
  source : c.source = ⟨fs.ino sourceFd, sourceName⟩
  target : c.target = ⟨fs.ino targetFd, targetName⟩
  source_plain : Path.slash ∉ sourceName ∧ Path.isStay sourceName = false
  target_plain : Path.slash ∉ targetName ∧ Path.isStay targetName = false
  /-- No entry has the new name up to case. -/
  free : ∃ entries, fs.entries? c.target.dir = some entries ∧
    ∀ e ∈ entries, folded P e.1 ≠ folded P c.target.name

theorem Entered.plotted {source target targetName : Bytes} {targetFd : Fd} (h : Entered fs source fd name)
    (h' : Entered fs target targetFd targetName) (hfree : CaseFree P fs target) :
    Plotted P fs ⟨⟨fs.ino fd, name⟩, ⟨fs.ino targetFd, targetName⟩⟩ fd targetFd name targetName := by
  obtain ⟨file, parent, entries, hfile, hparent, hread, hcase⟩ := hfree
  obtain rfl := Option.some.inj (hfile.symm.trans h'.fileName)
  exact
    { source := rfl
      target := rfl
      source_plain := ⟨h.no_slash, h.moves⟩
      target_plain := ⟨h'.no_slash, h'.moves⟩
      free := ⟨entries, h'.listing parent entries hparent hread, hcase⟩ }

theorem findProposal_of_index {state : PersistentState} {id : Uuid} {revision index : Nat} {p : Proposal}
    (h : state.proposalIndex id revision = .ok index) (hp : state.proposals[index]? = some p) :
    state.findProposal id = some p := by
  unfold PersistentState.proposalIndex at h
  unfold PersistentState.findProposal
  rw [List.find?_eq_bind_findIdx?_getElem?]
  split at h
  · cases h
  · next i hi =>
    split at h
    · cases h
    · split at h
      · cases h
      · obtain rfl := Except.ok.inj h
        rw [hi]
        exact hp

/-- A route, part by part. -/
theorem route_eq {state : PersistentState} {id : Uuid} {watched destination : Root → Bool}
    {p : Proposal} {choice : DestinationChoice} {sourceRoot destinationRoot : Root} {basename : Bytes}
    (hp : state.findProposal id = some p) (hchoice : p.destination = some choice)
    (hsource : state.findRoot p.sourceRootId watched = some sourceRoot)
    (hdestination : state.findRoot choice.rootId destination = some destinationRoot)
    (hrelative : decodeRelative p.sourceRelative = .ok relative)
    (hbasename : destinationBasename p relative = some basename) :
    state.route id watched destination = some (Path.join (bytes sourceRoot.path) relative,
      Path.join (Path.join (bytes destinationRoot.path) (bytes choice.directory)) basename) := by
  unfold PersistentState.route
  simp only [hp, hchoice, hsource, hdestination, hrelative, hbasename, Except.toOption, Option.bind_eq_bind,
    Option.bind_some, Option.pure_def]

theorem course_eq {state : PersistentState} {call : Call} {source target : Bytes} {s t : Slot}
    (h : call.route state = some (source, target)) (hs : fs.slotOf source = some s)
    (ht : fs.slotOf target = some t) : call.course state fs = some ⟨s, t⟩ := by
  unfold Call.course
  simp only [h, hs, ht, Option.bind_eq_bind, Option.bind_some, Option.pure_def]

/-- `approve` has opened the two ends of its course, and the file at the first. -/
theorem Readied.course {s : Service} {id : Uuid} {revision : Nat} {o : Opened} {verifiedFd : Fd}
    (haim : Aimed s id revision o) (h : Readied P s fs o verifiedFd) :
    ∃ c targetName, (Call.approve id revision).course s.state fs = some c ∧
      Plotted P fs c o.sourceParentFd o.destinationFolderFd o.sourceName targetName ∧
      Path.fileName o.destination = some targetName ∧
      fs.linkAt? c.source = some (fs.ino verifiedFd) := by
  obtain ⟨⟨choice, destinationRoot, sourceRoot, relative, rootFd, basename, hchoice, hdestination,
    hsource, hrelative, hname, hroot, hverified, hparent, -, hfolder, hbasename, hpath⟩, hfree⟩ := h
  obtain ⟨name, -, htarget⟩ := hfolder.entered hbasename
  have hentered := hparent.entered hroot (relative_of_decode hrelative) hname
  have hroute : (Call.approve id revision).route s.state = some _ :=
    route_eq (findProposal_of_index haim.index haim.found) hchoice hsource hdestination hrelative hbasename
  refine ⟨_, name, course_eq hroute hentered.slot htarget.slot, hentered.plotted htarget (hpath ▸ hfree),
    hpath ▸ htarget.fileName, hparent.verified hroot hname hverified⟩

/-- `undo` has opened the two ends of the course back. -/
theorem Returnable.course {s : Service} {id : Uuid} {revision : Nat} {o : Opened}
    (haim : Aimed s id revision o) (h : Returnable P s fs o relative) :
    ∃ c sourceName targetName, (Call.undo id revision).course s.state fs = some c ∧
      Plotted P fs c o.destinationFolderFd o.sourceParentFd sourceName targetName ∧
      Path.fileName o.destination = some sourceName ∧ Path.fileName relative = some targetName := by
  obtain ⟨-, ⟨choice, destinationRoot, sourceRoot, rootFd, source, hchoice, hdestination, hsource,
    hrelative, hpath, hback, hfree, hroot, hparent, hfolder⟩, -⟩ := h
  have habs := relative_of_decode hrelative
  -- the path the case check was made for
  obtain rfl : Path.join (bytes sourceRoot.path) relative = source := by
    unfold PersistentState.sourcePath at hpath
    rw [hsource] at hpath
    simp only [hrelative, bind, Except.bind] at hpath
    exact Except.ok.inj hpath
  -- the name the destination ends in
  obtain ⟨root, basename, hbasename, hback⟩ : ∃ root basename,
      destinationBasename o.proposal relative = some basename ∧
      o.destination = Path.join (Path.join (bytes root) (bytes choice.directory)) basename := by
    unfold PersistentState.destinationPath at hback
    simp only [hrelative, bind, Except.bind, hchoice] at hback
    split at hback
    · cases hback
    · next root _ =>
      split at hback
      · cases hback
      · next basename hbasename =>
        exact ⟨root.path, basename, hbasename, (Except.ok.inj hback).symm⟩
  obtain ⟨name, hnames, hsourceEnd⟩ := hfolder.entered hbasename
  have hsourceName : Path.fileName o.destination = some name := by
    obtain ⟨habs', name', hnames', hd⟩ := names_basename hbasename
    obtain rfl : name = name' := by
      rw [hnames] at hnames'
      exact List.singleton_inj.mp hnames'
    apply Path.fileName_of_names _ hd
    · exact Path.names (Path.join (bytes root) (bytes choice.directory))
    · rw [hback, Path.names_join habs', hnames]
  obtain ⟨targetName, htargetName⟩ := fileName_of_decode hrelative
  have htarget := hparent.entered hroot habs htargetName
  have hroute : (Call.undo id revision).route s.state = some _ :=
    congrArg (Option.map Prod.swap)
      (route_eq (findProposal_of_index haim.index haim.found) hchoice hsource hdestination hrelative hbasename)
  exact ⟨_, name, targetName, course_eq hroute hsourceEnd.slot htarget.slot,
    hsourceEnd.plotted htarget hfree, hsourceName, htargetName⟩

end

/-! ## The staging name -/

theorem Uuid.slash_not_mem_digits (count n : Nat) : '/' ∉ Uuid.digits count n := by
  induction count generalizing n with
  | zero => exact List.not_mem_nil
  | succ count ih =>
    unfold Uuid.digits
    rw [List.mem_append, List.mem_singleton]
    rintro (h | h)
    · exact ih _ h
    · exact hexDigit_ne_slash n h.symm

theorem Uuid.slash_not_mem_toText (id : Uuid) : '/' ∉ id.toText.toList := by
  have hd := Uuid.slash_not_mem_digits 32 id.value
  unfold Uuid.toText
  rw [String.toList_ofList]
  simp only [List.mem_append, List.mem_cons, not_or]
  refine ⟨⟨⟨⟨?_, by decide, ?_⟩, by decide, ?_⟩, by decide, ?_⟩, by decide, ?_⟩
  · exact fun h => hd (List.mem_of_mem_take h)
  · exact fun h => hd (List.mem_of_mem_drop (List.mem_of_mem_take h))
  · exact fun h => hd (List.mem_of_mem_drop (List.mem_of_mem_take h))
  · exact fun h => hd (List.mem_of_mem_drop (List.mem_of_mem_take h))
  · exact fun h => hd (List.mem_of_mem_drop h)

/-- The staging name is a plain name. -/
theorem stagingName_plain (id : Uuid) :
    Path.slash ∉ stagingName id ∧ Path.isStay (stagingName id) = false := by
  constructor
  · apply slash_not_mem_bytes
    rw [String.toList_append, String.toList_append, List.mem_append, List.mem_append]
    rintro ((h | h) | h)
    · exact absurd h (by decide)
    · exact Uuid.slash_not_mem_toText id h
    · exact absurd h (by decide)
  · have h2 : ∃ rest, stagingName id = 46 :: 115 :: rest := by
      have hs : stagingName id = (".sortinghat-" ++ id.toText ++ ".stage").toList.flatMap
          String.utf8EncodeChar := by
        unfold stagingName
        rw [← bytes_ofList, String.ofList_toList]
      rw [hs, String.toList_append, String.toList_append, List.flatMap_append, List.flatMap_append]
      exact ⟨_, rfl⟩
    obtain ⟨rest, h2⟩ := h2
    rw [h2]
    rfl

end SortingHat
